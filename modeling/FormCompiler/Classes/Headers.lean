/-!
# Headers of the toolkit

The header that declares each toolkit class a form may name.
-/

namespace FormCompiler.Classes

/-- Toolkit classes and their headers. -/
def toolkitHeaders : List (String × String) := [
  ("QAbstractButton", "qabstractbutton.h"), ("QAbstractItemView", "qabstractitemview.h"),
  ("QAbstractScrollArea", "qabstractscrollarea.h"), ("QAbstractSlider", "qabstractslider.h"),
  ("QAbstractSpinBox", "qabstractspinbox.h"), ("QAction", "qaction.h"),
  ("QActionGroup", "qactiongroup.h"), ("QApplication", "qapplication.h"),
  ("QBoxLayout", "qboxlayout.h"), ("QHBoxLayout", "qboxlayout.h"),
  ("QVBoxLayout", "qboxlayout.h"), ("QButtonGroup", "qbuttongroup.h"),
  ("QCalendarWidget", "qcalendarwidget.h"), ("QCheckBox", "qcheckbox.h"),
  ("QColumnView", "qcolumnview.h"), ("QComboBox", "qcombobox.h"),
  ("QCommandLinkButton", "qcommandlinkbutton.h"), ("QDate", "qdatetime.h"),
  ("QDateTime", "qdatetime.h"), ("QTime", "qdatetime.h"), ("QDateEdit", "qdatetimeedit.h"),
  ("QDateTimeEdit", "qdatetimeedit.h"), ("QTimeEdit", "qdatetimeedit.h"), ("QDial", "qdial.h"),
  ("QDialog", "qdialog.h"), ("QDialogButtonBox", "qdialogbuttonbox.h"),
  ("QDockWidget", "qdockwidget.h"), ("QDoubleSpinBox", "qspinbox.h"), ("QSpinBox", "qspinbox.h"),
  ("QFontComboBox", "qfontcombobox.h"), ("QFormLayout", "qformlayout.h"), ("QFrame", "qframe.h"),
  ("QGraphicsView", "qgraphicsview.h"), ("QGridLayout", "qgridlayout.h"),
  ("QGroupBox", "qgroupbox.h"), ("QHeaderView", "qheaderview.h"), ("QLabel", "qlabel.h"),
  ("QLayout", "qlayout.h"), ("QLCDNumber", "qlcdnumber.h"), ("QLineEdit", "qlineedit.h"),
  ("QListView", "qlistview.h"), ("QListWidget", "qlistwidget.h"),
  ("QListWidgetItem", "qlistwidget.h"), ("QLocale", "qlocale.h"),
  ("QMainWindow", "qmainwindow.h"), ("QMdiArea", "qmdiarea.h"),
  ("QMdiSubWindow", "qmdisubwindow.h"), ("QMenu", "qmenu.h"), ("QMenuBar", "qmenubar.h"),
  ("QPlainTextEdit", "qplaintextedit.h"), ("QProgressBar", "qprogressbar.h"),
  ("QPushButton", "qpushbutton.h"), ("QRadioButton", "qradiobutton.h"),
  ("QScrollArea", "qscrollarea.h"), ("QScrollBar", "qscrollbar.h"), ("QSlider", "qslider.h"),
  ("QSpacerItem", "qlayoutitem.h"), ("QSplitter", "qsplitter.h"),
  ("QStackedWidget", "qstackedwidget.h"), ("QStatusBar", "qstatusbar.h"),
  ("QTabWidget", "qtabwidget.h"), ("QTableView", "qtableview.h"),
  ("QTableWidget", "qtablewidget.h"), ("QTableWidgetItem", "qtablewidget.h"),
  ("QTextBrowser", "qtextbrowser.h"), ("QTextEdit", "qtextedit.h"), ("QToolBar", "qtoolbar.h"),
  ("QToolBox", "qtoolbox.h"), ("QToolButton", "qtoolbutton.h"), ("QTreeView", "qtreeview.h"),
  ("QTreeWidget", "qtreewidget.h"), ("QTreeWidgetItem", "qtreewidget.h"),
  ("QUndoView", "qundoview.h"), ("QVariant", "qvariant.h"), ("QWidget", "qwidget.h"),
  ("QWizard", "qwizard.h"), ("QWizardPage", "qwizardpage.h")]

/-- The header of a toolkit class. -/
def header? (className : String) : Option String := toolkitHeaders.lookup className

end FormCompiler.Classes

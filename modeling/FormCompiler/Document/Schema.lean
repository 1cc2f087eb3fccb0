import FormCompiler.Document.Scalar

/-!
# The schema of forms

A form is a tree of nodes.  The kind of a node fixes which attributes it may have, which child
elements, how often each may occur, and the order in which both are written.  A choice holds at most
one child out of those listed.  Tags are read in any case; a few are written with capital letters.
-/

namespace FormCompiler.Document

open Number

/-- The kinds of nodes. -/
inductive Kind where
  | ui
  | includes
  | includeFile
  | resources
  | resource
  | layoutDefault
  | layoutFunction
  | tabStops
  | customWidgets
  | header
  | customWidget
  | properties
  | propertyData
  | sizePolicyData
  | propertySpecifications
  | stringPropertySpecification
  | designerData
  | slots
  | widget
  | layout
  | layoutItem
  | row
  | column
  | item
  | spacer
  | script
  | widgetData
  | action
  | actionGroup
  | actionRef
  | buttonGroup
  | buttonGroups
  | property
  | color
  | gradientStop
  | gradient
  | brush
  | colorRole
  | colorGroup
  | palette
  | font
  | point
  | rect
  | locale
  | sizePolicy
  | size
  | date
  | time
  | dateTime
  | stringList
  | resourcePixmap
  | resourceIcon
  | string
  | pointF
  | rectF
  | sizeF
  | char
  | url
  | images
  | image
  | imageData
  | connections
  | connection
  | connectionHints
  | connectionHint
  deriving Repr, DecidableEq

/-- What a child element holds. -/
inductive Content where
  | scalar (t : ScalarType)
  | node (k : Kind)
  deriving Repr, DecidableEq

/-- An attribute: its name, its type, and the name under which it is written. -/
structure AttributeSpec where
  name : String
  type : ScalarType
  written : String
  deriving Repr, DecidableEq

/-- A child element: its tag, its content, whether it may be repeated, and the tag under which it is
written. -/
structure ChildSpec where
  tag : String
  content : Content
  many : Bool
  written : String
  deriving Repr, DecidableEq

structure Schema where
  tag : String
  attributes : List AttributeSpec
  children : List ChildSpec
  isChoice : Bool
  deriving Repr, DecidableEq

namespace Schema

def attr (name : String) (type : ScalarType) : AttributeSpec := ⟨name, type, name⟩

def texts (names : List String) : List AttributeSpec := names.map (attr · .string)

def int32s (names : List String) : List AttributeSpec := names.map (attr · (.int .int32))

def doubles (names : List String) : List AttributeSpec := names.map (attr · (.float .double))

def one (tag : String) (type : ScalarType) : ChildSpec := ⟨tag, .scalar type, false, tag⟩

def oneText (tag : String) : ChildSpec := one tag .string

def oneInt (tag : String) : ChildSpec := one tag (.int .int32)

def oneBool (tag : String) : ChildSpec := one tag .bool

def oneDouble (tag : String) : ChildSpec := one tag (.float .double)

def child (tag : String) (kind : Kind) : ChildSpec := ⟨tag, .node kind, false, tag⟩

def many (tag : String) (kind : Kind) : ChildSpec := ⟨tag, .node kind, true, tag⟩

def manyTexts (tag : String) : ChildSpec := ⟨tag, .scalar .string, true, tag⟩

def element (tag : String) (attributes : List AttributeSpec) (children : List ChildSpec) : Schema :=
  ⟨tag, attributes, children, false⟩

def choice (tag : String) (attributes : List AttributeSpec) (children : List ChildSpec) : Schema :=
  ⟨tag, attributes, children, true⟩

end Schema

open Schema in
/-- The schema of each kind. -/
def Kind.schema : Kind → Schema
  | ui => element "ui"
      (texts ["version", "language", "displayname"] ++
        [attr "stdsetdef" (.int .int32), ⟨"stdSetDef", .int .int32, "stdsetdef"⟩])
      [oneText "author", oneText "comment", oneText "exportmacro", oneText "class",
        child "widget" widget, child "layoutdefault" layoutDefault,
        child "layoutfunction" layoutFunction, oneText "pixmapfunction",
        child "customwidgets" customWidgets, child "tabstops" tabStops, child "images" images,
        child "includes" includes, child "resources" resources, child "connections" connections,
        child "designerdata" designerData, child "slots" slots, child "buttongroups" buttonGroups]
  | includes => element "includes" [] [many "include" includeFile]
  | includeFile => element "include" (texts ["location", "impldecl"]) []
  | resources => element "resources" (texts ["name"]) [many "include" resource]
  | resource => element "resource" (texts ["location"]) []
  | layoutDefault => element "layoutdefault" (int32s ["spacing", "margin"]) []
  | layoutFunction => element "layoutfunction" (texts ["spacing", "margin"]) []
  | tabStops => element "tabstops" [] [manyTexts "tabstop"]
  | customWidgets => element "customwidgets" [] [many "customwidget" customWidget]
  | header => element "header" (texts ["location"]) []
  | customWidget => element "customwidget" []
      [oneText "class", oneText "extends", child "header" header, child "sizehint" size,
        oneText "addpagemethod", oneInt "container", child "sizepolicy" sizePolicyData,
        oneText "pixmap", child "script" script, child "properties" properties,
        child "slots" slots, child "propertyspecifications" propertySpecifications]
  | properties => element "properties" [] [many "property" propertyData]
  | propertyData => element "propertydata" (texts ["type"]) []
  | sizePolicyData => element "sizepolicydata" [] [oneInt "hordata", oneInt "verdata"]
  | propertySpecifications => element "propertyspecifications" []
      [many "stringpropertyspecification" stringPropertySpecification]
  | stringPropertySpecification =>
    element "stringpropertyspecification" (texts ["name", "type", "notr"]) []
  | designerData => element "designerdata" [] [many "property" property]
  | slots => element "slots" [] [manyTexts "signal", manyTexts "slot"]
  | widget => element "widget" (texts ["class", "name"] ++ [attr "native" .bool])
      [manyTexts "class", many "property" property, many "script" script,
        many "widgetdata" widgetData, many "attribute" property, many "row" row,
        many "column" column, many "item" item, many "layout" layout, many "widget" widget,
        many "action" action, many "actiongroup" actionGroup, many "addaction" actionRef,
        manyTexts "zorder"]
  | layout => element "layout"
      (texts ["class", "name", "stretch", "rowstretch", "columnstretch", "rowminimumheight",
        "columnminimumwidth"])
      [many "property" property, many "attribute" property, many "item" layoutItem]
  | layoutItem => choice "layoutitem"
      (int32s ["row", "column", "rowspan", "colspan"] ++ texts ["alignment"])
      [child "widget" widget, child "layout" layout, child "spacer" spacer]
  | row => element "row" [] [many "property" property]
  | column => element "column" [] [many "property" property]
  | item => element "item" (int32s ["row", "column"]) [many "property" property, many "item" item]
  | spacer => element "spacer" (texts ["name"]) [many "property" property]
  | script => element "script" (texts ["source", "language"]) []
  | widgetData => element "widgetdata" [] [many "property" property]
  | action => element "action" (texts ["name", "menu"])
      [many "property" property, many "attribute" property]
  | actionGroup => element "actiongroup" (texts ["name"])
      [many "action" action, many "actiongroup" actionGroup, many "property" property,
        many "attribute" property]
  | actionRef => element "actionref" (texts ["name"]) []
  | buttonGroup => element "buttongroup" (texts ["name"])
      [many "property" property, many "attribute" property]
  | buttonGroups => element "buttongroups" [] [many "buttongroup" buttonGroup]
  | property => choice "property" (texts ["name"] ++ int32s ["stdset"])
      [oneText "bool", child "color" color, oneText "cstring", oneInt "cursor",
        ⟨"cursorshape", .scalar .string, false, "cursorShape"⟩, oneText "enum", child "font" font,
        child "iconset" resourceIcon, child "pixmap" resourcePixmap, child "palette" palette,
        child "point" point, child "rect" rect, oneText "set", child "locale" locale,
        child "sizepolicy" sizePolicy, child "size" size, child "string" string,
        child "stringlist" stringList, oneInt "number", one "float" (.float .single),
        oneDouble "double", child "date" date, child "time" time, child "datetime" dateTime,
        child "pointf" pointF, child "rectf" rectF, child "sizef" sizeF,
        ⟨"longlong", .scalar (.int .int64), false, "longLong"⟩, child "char" char,
        child "url" url, ⟨"uint", .scalar (.int .uint32), false, "UInt"⟩,
        ⟨"ulonglong", .scalar (.int .uint64), false, "uLongLong"⟩, child "brush" brush]
  | color => element "color" (int32s ["alpha"]) [oneInt "red", oneInt "green", oneInt "blue"]
  | gradientStop => element "gradientstop" (doubles ["position"]) [child "color" color]
  | gradient => element "gradient"
      (doubles ["startx", "starty", "endx", "endy", "centralx", "centraly", "focalx", "focaly",
        "radius", "angle"] ++ texts ["type", "spread", "coordinatemode"])
      [many "gradientstop" gradientStop]
  | brush => choice "brush" (texts ["brushstyle"])
      [child "color" color, child "texture" property, child "gradient" gradient]
  | colorRole => element "colorrole" (texts ["role"]) [child "brush" brush]
  | colorGroup => element "colorgroup" [] [many "colorrole" colorRole, many "color" color]
  | palette => element "palette" []
      [child "active" colorGroup, child "inactive" colorGroup, child "disabled" colorGroup]
  | font => element "font" []
      [oneText "family", oneInt "pointsize", oneInt "weight", oneBool "italic", oneBool "bold",
        oneBool "underline", oneBool "strikeout", oneBool "antialiasing", oneText "stylestrategy",
        oneBool "kerning"]
  | point => element "point" [] [oneInt "x", oneInt "y"]
  | rect => element "rect" [] [oneInt "x", oneInt "y", oneInt "width", oneInt "height"]
  | locale => element "locale" (texts ["language", "country"]) []
  | sizePolicy => element "sizepolicy" (texts ["hsizetype", "vsizetype"])
      [oneInt "hsizetype", oneInt "vsizetype", oneInt "horstretch", oneInt "verstretch"]
  | size => element "size" [] [oneInt "width", oneInt "height"]
  | date => element "date" [] [oneInt "year", oneInt "month", oneInt "day"]
  | time => element "time" [] [oneInt "hour", oneInt "minute", oneInt "second"]
  | dateTime => element "datetime" []
      [oneInt "hour", oneInt "minute", oneInt "second", oneInt "year", oneInt "month", oneInt "day"]
  | stringList => element "stringlist" (texts ["notr", "comment", "extracomment"])
      [manyTexts "string"]
  | resourcePixmap => element "resourcepixmap" (texts ["resource", "alias"]) []
  | resourceIcon => element "resourceicon" (texts ["theme", "resource"])
      [child "normaloff" resourcePixmap, child "normalon" resourcePixmap,
        child "disabledoff" resourcePixmap, child "disabledon" resourcePixmap,
        child "activeoff" resourcePixmap, child "activeon" resourcePixmap,
        child "selectedoff" resourcePixmap, child "selectedon" resourcePixmap]
  | string => element "string" (texts ["notr", "comment", "extracomment"]) []
  | pointF => element "pointf" [] [oneDouble "x", oneDouble "y"]
  | rectF => element "rectf" []
      [oneDouble "x", oneDouble "y", oneDouble "width", oneDouble "height"]
  | sizeF => element "sizef" [] [oneDouble "width", oneDouble "height"]
  | char => element "char" [] [oneInt "unicode"]
  | url => element "url" [] [child "string" string]
  | images => element "images" [] [many "image" image]
  | image => element "image" (texts ["name"]) [child "data" imageData]
  | imageData => element "imagedata" (texts ["format"] ++ int32s ["length"]) []
  | connections => element "connections" [] [many "connection" connection]
  | connection => element "connection" []
      [oneText "sender", oneText "signal", oneText "receiver", oneText "slot",
        child "hints" connectionHints]
  | connectionHints => element "connectionhints" [] [many "hint" connectionHint]
  | connectionHint => element "connectionhint" (texts ["type"]) [oneInt "x", oneInt "y"]

namespace Kind

/-- The tag of a kind. -/
def tag (k : Kind) : String := k.schema.tag

def attribute? (k : Kind) (name : String) : Option AttributeSpec :=
  k.schema.attributes.find? (·.name == name)

def child? (k : Kind) (tag : String) : Option ChildSpec :=
  k.schema.children.find? (·.tag == tag)

/-- The place of an attribute in the order of writing. -/
def attributeRank (k : Kind) (name : String) : Nat :=
  k.schema.attributes.findIdx (·.name == name)

/-- The place of a child in the order of writing. -/
def childRank (k : Kind) (tag : String) : Nat :=
  k.schema.children.findIdx (·.tag == tag)

end Kind

end FormCompiler.Document

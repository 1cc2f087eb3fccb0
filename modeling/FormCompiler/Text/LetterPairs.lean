import FormCompiler.Text.Ranges

/-!
# Pairs of letters

Most letters that have a case come in pairs, and each member of a pair is the other one's upper or
lower case.  In long stretches of the alphabet the members of pairs alternate.
-/

set_option maxRecDepth 4000

namespace FormCompiler.Text

/-- Stretches in which each upper case letter stands before its lower case letter: the first and the
last upper case letter. -/
def alternatingLetters : List (Nat × Nat) := [
  (0x100, 0x12e), (0x132, 0x136), (0x139, 0x147), (0x14a, 0x176), (0x179, 0x17d), (0x182, 0x184),
  (0x1a0, 0x1a4), (0x1b3, 0x1b5), (0x1cd, 0x1db), (0x1de, 0x1ee), (0x1f8, 0x21e), (0x222, 0x232),
  (0x246, 0x24e), (0x370, 0x372), (0x3d8, 0x3ee), (0x460, 0x480), (0x48a, 0x4be), (0x4c1, 0x4cd),
  (0x4d0, 0x52e), (0x1e00, 0x1e94), (0x1ea0, 0x1efe), (0x2c67, 0x2c6b), (0x2c80, 0x2ce2),
  (0x2ceb, 0x2ced), (0xa640, 0xa66c), (0xa680, 0xa69a), (0xa722, 0xa72e), (0xa732, 0xa76e),
  (0xa779, 0xa77b), (0xa77e, 0xa786), (0xa790, 0xa792), (0xa796, 0xa7a8), (0xa7b4, 0xa7c2),
  (0xa7c7, 0xa7c9), (0xa7cc, 0xa7da)]

/-- The shifts that take the upper case letter of each pair to the lower case letter. -/
def letterPairs : List Shift := shiftsOf [
  (0x41, 0x5a, 1, 0x61), (0xc0, 0xd6, 1, 0xe0), (0xd8, 0xde, 1, 0xf8), (0x189, 0x18a, 1, 0x256),
  (0x1b1, 0x1b2, 1, 0x28a), (0x388, 0x38a, 1, 0x3ad), (0x38e, 0x38f, 1, 0x3cd),
  (0x391, 0x3a1, 1, 0x3b1), (0x3a3, 0x3ab, 1, 0x3c3), (0x3fd, 0x3ff, 1, 0x37b),
  (0x400, 0x40f, 1, 0x450), (0x410, 0x42f, 1, 0x430), (0x531, 0x556, 1, 0x561),
  (0x10a0, 0x10c5, 1, 0x2d00), (0x13a0, 0x13ef, 1, 0xab70), (0x13f0, 0x13f5, 1, 0x13f8),
  (0x1c90, 0x1cba, 1, 0x10d0), (0x1cbd, 0x1cbf, 1, 0x10fd), (0x1f08, 0x1f0f, 1, 0x1f00),
  (0x1f18, 0x1f1d, 1, 0x1f10), (0x1f28, 0x1f2f, 1, 0x1f20), (0x1f38, 0x1f3f, 1, 0x1f30),
  (0x1f48, 0x1f4d, 1, 0x1f40), (0x1f59, 0x1f5f, 2, 0x1f51), (0x1f68, 0x1f6f, 1, 0x1f60),
  (0x1fb8, 0x1fb9, 1, 0x1fb0), (0x1fba, 0x1fbb, 1, 0x1f70), (0x1fc8, 0x1fcb, 1, 0x1f72),
  (0x1fd8, 0x1fd9, 1, 0x1fd0), (0x1fda, 0x1fdb, 1, 0x1f76), (0x1fe8, 0x1fe9, 1, 0x1fe0),
  (0x1fea, 0x1feb, 1, 0x1f7a), (0x1ff8, 0x1ff9, 1, 0x1f78), (0x1ffa, 0x1ffb, 1, 0x1f7c),
  (0x2160, 0x216f, 1, 0x2170), (0x24b6, 0x24cf, 1, 0x24d0), (0x2c00, 0x2c2f, 1, 0x2c30),
  (0x2c7e, 0x2c7f, 1, 0x23f), (0xff21, 0xff3a, 1, 0xff41), (0x10400, 0x10427, 1, 0x10428),
  (0x104b0, 0x104d3, 1, 0x104d8), (0x10570, 0x10594, 2, 0x10597), (0x10571, 0x10579, 2, 0x10598),
  (0x1057d, 0x10589, 2, 0x105a4), (0x1058d, 0x10591, 2, 0x105b4), (0x10c80, 0x10cb2, 1, 0x10cc0),
  (0x10d50, 0x10d65, 1, 0x10d70), (0x118a0, 0x118bf, 1, 0x118c0), (0x16e40, 0x16e5f, 1, 0x16e60),
  (0x16ea0, 0x16eb8, 1, 0x16ebb), (0x1e900, 0x1e921, 1, 0x1e922)] ++
  alternatingLetters.map (fun (first, last) => ⟨⟨first, last, 2⟩, first + 1⟩) ++ pairsOf [
  (0x178, 0xff), (0x181, 0x253), (0x186, 0x254), (0x187, 0x188), (0x18b, 0x18c), (0x18e, 0x1dd),
  (0x18f, 0x259), (0x190, 0x25b), (0x191, 0x192), (0x193, 0x260), (0x194, 0x263), (0x196, 0x269),
  (0x197, 0x268), (0x198, 0x199), (0x19c, 0x26f), (0x19d, 0x272), (0x19f, 0x275), (0x1a6, 0x280),
  (0x1a7, 0x1a8), (0x1a9, 0x283), (0x1ac, 0x1ad), (0x1ae, 0x288), (0x1af, 0x1b0), (0x1b7, 0x292),
  (0x1b8, 0x1b9), (0x1bc, 0x1bd), (0x1c4, 0x1c6), (0x1c7, 0x1c9), (0x1ca, 0x1cc), (0x1f1, 0x1f3),
  (0x1f4, 0x1f5), (0x1f6, 0x195), (0x1f7, 0x1bf), (0x220, 0x19e), (0x23a, 0x2c65), (0x23b, 0x23c),
  (0x23d, 0x19a), (0x23e, 0x2c66), (0x241, 0x242), (0x243, 0x180), (0x244, 0x289), (0x245, 0x28c),
  (0x376, 0x377), (0x37f, 0x3f3), (0x386, 0x3ac), (0x38c, 0x3cc), (0x3cf, 0x3d7), (0x3f7, 0x3f8),
  (0x3f9, 0x3f2), (0x3fa, 0x3fb), (0x4c0, 0x4cf), (0x10c7, 0x2d27), (0x10cd, 0x2d2d),
  (0x1c89, 0x1c8a), (0x1fec, 0x1fe5), (0x2132, 0x214e), (0x2183, 0x2184), (0x2c60, 0x2c61),
  (0x2c62, 0x26b), (0x2c63, 0x1d7d), (0x2c64, 0x27d), (0x2c6d, 0x251), (0x2c6e, 0x271),
  (0x2c6f, 0x250), (0x2c70, 0x252), (0x2c72, 0x2c73), (0x2c75, 0x2c76), (0x2cf2, 0x2cf3),
  (0xa77d, 0x1d79), (0xa78b, 0xa78c), (0xa78d, 0x265), (0xa7aa, 0x266), (0xa7ab, 0x25c),
  (0xa7ac, 0x261), (0xa7ad, 0x26c), (0xa7ae, 0x26a), (0xa7b0, 0x29e), (0xa7b1, 0x287),
  (0xa7b2, 0x29d), (0xa7b3, 0xab53), (0xa7c4, 0xa794), (0xa7c5, 0x282), (0xa7c6, 0x1d8e),
  (0xa7cb, 0x264), (0xa7dc, 0x19b), (0xa7f5, 0xa7f6), (0x10595, 0x105bc)]

end FormCompiler.Text

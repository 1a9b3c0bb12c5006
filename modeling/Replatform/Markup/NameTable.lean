import Replatform.Text.Blank
/-!
# Letters of names in documents

The characters outside ASCII that a name in a document may begin with, and those that it may hold
behind its first one, as ranges of code points in increasing order.
-/

namespace Replatform.Markup

/-- The letters outside ASCII that a name may begin with. The ranges may go on over characters that
are no letters. -/
def nameStartRanges : List (Nat × Nat) := Text.rangesOf 0
  [192,114,2,11,2,8,1,53,1,68,9,36,3,2,4,30,56,89,18,7,196,73,1,7,3,1,1,1,1,1,1,1,1,18,13,12,1,66,1,
   12,1,36,14,53,2,2,2,2,3,28,2,8,2,2,55,41,7,38,73,27,5,3,46,26,6,10,38,71,2,5,1,15,1,23,542,57,26,
   10,35,53,34,6,14,2,19,90,19,26,1,49,34,1,36,47,2,44,35,49,1,3,75,47,1,5,38,2,35,53,36,4,35,36,1,
   16,38,2,159,46,1,22,59,4,2,2,1,1,2,1,6,4,1,7,1,7,2,2,1,2,1,21,123,42,310,38,10,39,9,1,1,2,1,3,1,
   1,1,2,1,5,41,1,1,1,1,1,11,1,1,1,1,1,3,2,3,1,5,3,1,1,1,1,1,1,1,1,3,2,3,2,1,1,40,1,9,1,2,1,2,2,7,2,
   1,1,1,7,40,1,4,1,8,1,3078,156,4,90,6,253,297,1,3,2,84,3,3716,35,23,84,12,90,10,40,7379,20902,
   3162,11172]

/-- How a name may go on, outside ASCII, other than it may begin. The ranges may go on over letters
that it may begin with. -/
def nameRanges : List (Nat × Nat) := Text.rangesOf 0
  [183,1,536,2,46,70,26,2,37,1,251,4,266,17,1,23,1,3,1,1,1,2,1,1,123,19,13,10,6,1,101,19,1,4,2,10,
   519,3,56,18,3,4,13,2,2,10,17,3,56,1,1,7,2,2,2,3,9,1,10,2,2,10,18,1,57,1,1,5,4,2,2,3,24,12,15,3,
   56,10,1,3,1,3,24,10,17,3,56,8,3,2,2,3,8,2,14,10,18,2,58,5,3,3,1,4,9,1,15,9,17,3,58,7,1,3,1,4,7,2,
   15,10,18,2,58,7,1,3,1,4,7,2,15,10,18,2,58,6,2,3,1,4,9,1,14,10,193,10,11,9,1,10,87,9,1,2,9,1,1,6,
   2,10,62,2,6,10,11,1,1,1,1,1,4,2,49,20,1,6,4,6,1,1,1,21,3,7,1,1,4374,13,4,1,3875,1,36,6,1,5,99,2,
   2,2,93,3]

end Replatform.Markup

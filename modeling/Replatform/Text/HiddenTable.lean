import Replatform.Text.Blank
/-!
# Characters without a glyph

The code points that are written as an escape when text is shown in quotes, as closed ranges in
ascending order: controls, format characters, unassigned code points, and every space but the
ordinary one. Letters are never hidden, so the ranges may go on over letters.
-/

namespace Replatform.Text

/-- The characters that are never shown as themselves, but for letters. -/
def hiddenRanges : List (Nat × Nat) := rangesOf 0
  [0,32,95,34,12,1,714,2,6,4,7,24,397,41,50,2,3,1,55,39,6,17,22,1,192,1,48,2,59,2,101,14,59,2,49,2,
   15,1,28,2,1,17,31,9,74,1,161,56,9,2,2,2,4,8,1,7,5,2,25,2,3,56,1,1,5,4,2,2,3,3,1,20,17,10,3,56,10,
   1,3,1,3,18,4,2,12,7,7,1,3,56,9,2,2,2,3,7,3,7,5,2,18,10,2,58,5,3,3,1,4,9,1,14,21,5,13,47,9,1,3,1,
   4,7,2,9,4,19,22,47,9,1,3,1,4,7,2,9,4,28,13,5,51,1,3,1,6,4,16,2,26,1,3,70,1,4,6,1,1,1,8,18,3,12,
   58,4,29,75,23,10,6,50,72,41,39,1,36,1,15,1,13,37,198,10,377,276,32,3,26,102,640,1,28,3,89,7,22,9,
   24,9,20,30,2,12,94,34,14,1,11,102,43,117,12,4,12,4,1,3,42,112,62,2,65,1,29,2,11,22,14,2,31,49,77,
   3,47,1,116,8,60,3,15,3,60,52,11,8,43,5,534,160,15,1,14,9,19,6,9,17,24,8,47,21,27,17,33,15,33,15,
   140,4,663,25,11,21,1812,2,32,1,349,5,45,73,2,14,24,73,126,34,26,1,89,12,214,26,12,5,63,89,103,
   144,84,12,47,1,29293,3,55,9,348,20,184,8,203,39,59,3,10,6,56,8,70,8,12,6,116,11,30,3,78,16,33,1,
   55,9,14,14,103,24,28,57,60,4,126,20271,26,15,125,16,445,63,1,32,42,6,51,1,19,1,4,149,190,33,7,1,
   7,13,2,258,3,52,88,1,13,3,1,47,46,226,28,84,43,36,37,4,14,409,12,732,72,128,27,5,1,146,50,1,2,5,
   8,36,3,4,10,7,9,7,64,32,39,4,12,66,29,67,4,349,46,387,3,130,42,22,26,118,78,4,36,9,62,1,5,61,53,
   1,18,8,39,9,96,51,44,96,11,6,59,21,4,55,10,2,2,2,3,9,1,5,7,2,7,3,5,139,92,1,5,30,72,184,54,2,38,
   34,69,27,13,19,58,99,15,4,23,185,60,220,30,1,2,2,12,99,46,2,11,27,72,8,83,359,45,1,14,42,32,2,22,
   1,14,84,44,3,1,1,2,1,9,34,37,1,2,1,6,327,25,199,50,13,923,214,5,2843,99,14971,81,49,6,10,70,762,
   91,180,57,7,17,64,5,11,2,19626,4,4704,46,2,23,9,116,60,246,10,39,2,74,8,112,21,70,186,87,849,292,
   2,702,15,5,1,15,1360,7,1,17,2,7,1,2,1,5,261,14,16,2,320,31,17,58,5,1,1479,16,41,76,18,2,785,68,
   76,61,434,2,270,44,4,100,12,15,2,15,1,15,1,37,10,174,56,29,13,44,4,9,7,2,14,6,154,984,5,16,3,13,
   3,116,12,89,7,12,4,1,15,12,4,56,8,10,6,40,8,30,2,2,78,340,12,14,2,5,3,5,3,7,9,29,3,11,5,6,10,10,
   6,8,8,7,9,147,1,55,787765,240,196112]

end Replatform.Text

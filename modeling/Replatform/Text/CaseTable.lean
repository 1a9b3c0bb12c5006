import Replatform.Text.Blank
/-!
# Case tables

What is known about capital and small letters beyond ASCII. A shift `(first, last, step, target)`
says that every `step`-th code point from `first` to `last` has its counterpart at the same
distance from `target`; an expansion `(c, cs)` that `c` becomes the characters `cs`. Classes are
given as closed ranges.
-/

namespace Replatform.Text

/-- Shifts of every other code point to the one before it. -/
def alternate (table : List Nat) : List (Nat × Nat × Nat × Nat) :=
  (rangesOf 0 table).map fun r => (r.1, r.2, 2, r.1 - 1)

/-- Shifts of ranges, each given by its distance from the one before it, its length and its
target. -/
def shiftsOf (start : Nat) : List Nat → List (Nat × Nat × Nat × Nat)
  | gap :: length :: target :: table =>
    (start + gap, start + gap + length - 1, 1, target) :: shiftsOf (start + gap + length) table
  | _ => []

/-- The expansions of `count` code points from `first` on. They differ in their first characters,
which follow each other as well. -/
def spread (first count : Nat) (cs : List Nat) : List (Nat × List Nat) :=
  (List.range count).map fun i => (first + i, cs.modifyHead (· + i))

/-- Capitals of single characters. -/
def upperShifts : List (Nat × Nat × Nat × Nat) :=
  alternate
    [257,47,3,5,2,15,2,45,2,5,4,3,2,1,3,1,5,1,6,1,7,5,2,1,4,1,2,1,3,3,2,1,3,1,7,1,2,1,2,1,2,15,2,17,
     2,1,2,1,3,39,3,17,8,1,5,1,4,9,289,3,3,1,97,23,8,1,2,1,101,33,9,53,2,13,2,95,6353,149,11,95,644,
     1,2780,1,6,5,6,1,2,1,10,99,8,3,4,1,31053,45,19,27,135,13,3,61,10,3,2,9,4,1,4,3,3,19,11,15,4,3,
     6,1,5,3,28,1]
  ++ shiftsOf 0
    [181,1,924,42,23,192,1,7,216,0,1,376,49,1,73,77,1,83,0,1,579,20,1,502,4,1,573,3,1,544,32,1,503,
     6,1,452,2,1,455,2,1,458,16,1,398,21,1,497,75,2,11390,15,1,11375,0,1,11373,0,1,11376,0,1,385,0,
     1,390,1,2,393,1,1,399,1,1,400,0,1,42923,3,1,403,0,1,42924,1,1,404,1,1,42893,0,1,42922,1,1,407,
     0,1,406,0,1,42926,0,1,11362,0,1,42925,2,1,412,1,1,11374,0,1,413,2,1,415,7,1,11364,2,1,422,1,1,
     42949,0,1,425,3,1,42929,0,1,430,0,1,580,0,2,433,0,1,581,5,1,439,10,1,42930,0,1,42928,166,1,921,
     53,3,1021,46,1,902,0,3,904,1,17,913,0,1,931,0,9,931,0,1,908,0,2,910,1,1,914,0,1,920,3,1,934,0,
     1,928,0,1,975,24,1,922,0,1,929,0,1,1017,0,1,895,1,1,917,58,32,1040,0,16,1024,111,1,1216,145,38,
     1329,2889,43,7312,2,3,7357,760,6,5104,2178,1,1042,0,1,1044,0,1,1054,0,2,1057,0,1,1058,0,1,1066,
     0,1,1122,0,1,42570,240,1,42877,3,1,11363,16,1,42950,268,1,7776,100,8,7944,8,6,7960,10,8,7976,8,
     8,7992,8,6,8008,11,1,8025,1,1,8027,1,1,8029,1,1,8031,8,8,8040,8,2,8122,0,4,8136,0,2,8154,0,2,
     8184,0,2,8170,0,2,8186,50,2,8120,12,1,921,17,2,8152,14,2,8168,3,1,8172,360,1,8498,33,16,8544,
     848,26,9398,1862,48,11264,5,1,570,0,1,574,153,38,4256,1,1,4295,5,1,4301,31334,1,42948,958,1,
     42931,28,80,5024,21377,26,65313,1229,40,66560,136,36,66736,155,11,66928,1,15,66940,1,7,66956,1,
     2,66964,1795,51,68736,3021,32,71840,21888,32,93760,31394,34,125184]

/-- Capitals that are more than one character. -/
def upperExpansions : List (Nat × List Nat) :=
  [(223,[83,83]),(329,[700,78]),(496,[74,780]),(912,[921,776,769]),(944,[933,776,769]),
   (1415,[1333,1362]),(7830,[72,817]),(7831,[84,776]),(7832,[87,778]),(7833,[89,778]),
   (7834,[65,702]),(8016,[933,787]),(8018,[933,787,768]),(8020,[933,787,769]),(8022,[933,787,834]),
   (8114,[8122,921]),(8115,[913,921]),(8116,[902,921]),(8118,[913,834]),(8119,[913,834,921]),
   (8124,[913,921]),(8130,[8138,921]),(8131,[919,921]),(8132,[905,921]),(8134,[919,834]),
   (8135,[919,834,921]),(8140,[919,921]),(8146,[921,776,768]),(8147,[921,776,769]),(8150,[921,834]),
   (8151,[921,776,834]),(8162,[933,776,768]),(8163,[933,776,769]),(8164,[929,787]),(8166,[933,834]),
   (8167,[933,776,834]),(8178,[8186,921]),(8179,[937,921]),(8180,[911,921]),(8182,[937,834]),
   (8183,[937,834,921]),(8188,[937,921]),(64256,[70,70]),(64257,[70,73]),(64258,[70,76]),
   (64259,[70,70,73]),(64260,[70,70,76]),(64261,[83,84]),(64262,[83,84]),(64275,[1348,1350]),
   (64276,[1348,1333]),(64277,[1348,1339]),(64278,[1358,1350]),(64279,[1348,1341])]
  ++ spread 8064 8 [7944, 921] ++ spread 8072 8 [7944, 921] ++ spread 8080 8 [7976, 921]
  ++ spread 8088 8 [7976, 921] ++ spread 8096 8 [8040, 921] ++ spread 8104 8 [8040, 921]

/-- Small letters of single characters: those of letters that are not the capital of their small
letter, or not the only one, and of the others the way back from the capital. -/
def lowerShifts : List (Nat × Nat × Nat × Nat) :=
  shiftsOf 0
    [452,1,454,0,1,454,1,1,457,0,1,457,1,1,460,0,1,460,37,1,499,0,1,499,422,1,953,2,1,956,6,1,963,
     80,1,952,6825,1,223,233,8,8064,8,8,8080,8,8,8096,12,1,8115,15,1,8131,47,1,8179,297,1,969,3,1,
     107,0,1,229]
  ++ upperShifts.map fun (first, last, step, target) =>
    (target, target + (last - first), step, first)

/-- Small letters that are more than one character. -/
def lowerExpansions : List (Nat × List Nat) :=
  [(304, [105, 775])]

/-- Initial letters that differ from the first character of the capital or are all of it. -/
def titleExpansions : List (Nat × List Nat) :=
  [(329,[700,78]),(452,[453]),(454,[453]),(455,[456]),(457,[456]),(458,[459]),(460,[459]),
   (497,[498]),(499,[498]),(8115,[8124]),(8131,[8140]),(8179,[8188])] ++ spread 4304 43 [4304]
  ++ spread 4349 3 [4349] ++ spread 8064 8 [8072] ++ spread 8080 8 [8088] ++ spread 8096 8 [8104]

/-- Capitals that have no small letter. -/
def capitalRanges : List (Nat × Nat) := rangesOf 0
  [978,3,7469,1,4,1,3,3,2,3,2,1,3,5,6,1,3,1,3,2,2,2,1,1,10,2,5,1,111290,26,26,26,26,26,26,1,1,2,2,1,
   2,2,2,4,1,8,26,26,26,2,1,4,2,8,1,7,27,2,1,4,1,5,1,1,3,7,27,26,26,26,26,26,26,26,26,26,26,26,30,
   25,33,25,33,25,33,25,33,25,33,1,6501,26,6,26,6,26]

/-- Small letters that have no capital. The ranges may go on over others. -/
def smallRanges : List (Nat × Nat) := rangesOf 0
  [170,1,15,1,125,1,84,1,13,1,14,2,14,1,3,1,98,1,18,6,27,63,1,36,7,2,30,5,149,1,129,1,355,41,6007,
   192,220,2,1,1,465,1,13,1,16,13,109,1,3,2,3,1,27,1,4,1,4,1,2,2,8,4,2855,1,2,1,2,7,102,1,31159,2,
   146,2,62,9,21,1,6,1,25,1,35,1,1,1,34,3,821,43,1,13,23575,1,2,3,1,42,1,9,52319,26,26,7,1,18,26,26,
   26,4,1,1,1,7,1,11,26,26,26,26,26,26,26,26,26,26,26,26,26,26,26,26,26,28,28,25,1,6,26,25,1,6,26,
   25,1,6,26,25,1,6,26,25,1,6,1,1,1844,10,1,20]

/-- Letters that are both: a capital followed by a small letter in one character. -/
def initialRanges : List (Nat × Nat) := rangesOf 0
  [453,1,2,1,2,1,38,1,7573,8,8,8,8,8,12,1,15,1,47,1]

/-- Characters that are passed over when the neighbours of a letter are looked at. -/
def caselessRanges : List (Nat × Nat) := rangesOf 0
  [168,1,4,1,1,1,4,1,2,2,503,192,4,2,4,1,9,2,1,1,251,7,207,1,5,1,49,45,1,1,1,2,1,2,1,1,44,1,11,6,10,
   11,1,1,35,1,10,21,16,1,101,8,1,10,1,4,33,1,1,1,30,27,91,11,58,11,4,1,2,1,24,24,43,3,44,1,7,2,6,8,
   41,58,55,1,1,1,4,8,4,1,3,7,10,2,13,1,15,1,58,1,4,4,8,1,20,2,26,1,2,2,57,1,4,2,4,2,2,3,3,1,30,2,3,
   1,11,2,57,1,4,5,1,2,4,1,20,2,22,6,1,1,58,1,2,1,1,4,8,1,7,2,11,2,30,1,61,1,12,1,50,1,3,1,55,1,1,3,
   5,3,1,4,7,2,11,2,29,1,58,1,2,1,6,1,5,2,20,2,28,2,57,2,4,4,8,1,20,2,29,1,72,1,7,3,1,1,90,1,2,7,11,
   9,98,1,2,9,9,1,1,6,74,2,27,1,1,1,1,1,55,14,1,5,1,2,5,11,1,36,9,1,102,4,1,6,1,2,2,2,25,2,4,3,16,4,
   13,1,2,2,6,1,15,1,94,1,608,3,946,3,29,2,30,2,30,2,64,2,1,7,8,1,2,11,3,1,5,1,45,5,51,1,65,2,34,1,
   118,3,4,2,9,1,6,3,219,2,2,1,58,1,1,7,1,1,1,1,2,8,6,10,2,1,39,1,8,31,49,4,48,1,1,5,1,1,5,1,40,9,
   12,2,32,4,2,2,1,3,56,1,1,2,3,1,1,3,58,8,2,2,64,6,82,3,1,13,1,7,4,1,6,1,3,2,50,63,13,1,34,101,445,
   1,1,3,11,3,13,3,13,3,13,2,12,5,8,2,10,1,2,1,2,5,49,5,1,10,1,1,13,1,16,13,51,33,2955,2,113,3,125,
   1,15,1,96,32,47,1,469,1,36,4,3,5,5,1,93,6,93,3,28438,1,1250,6,270,1,98,4,1,10,1,1,28,4,80,2,14,
   34,78,1,23,3,103,3,3,2,8,1,3,1,4,1,25,2,5,1,151,2,26,18,13,1,38,8,25,11,46,3,48,1,2,4,2,2,17,1,
   21,2,66,6,2,2,2,2,12,1,8,1,35,1,11,1,51,1,1,3,2,2,5,2,1,1,27,1,14,2,5,2,1,1,100,5,9,3,121,1,2,1,
   4,1,20272,1,147,17,573,16,3,1,12,16,34,1,2,1,169,1,7,1,6,1,11,1,35,1,1,1,47,1,45,2,67,1,21,3,513,
   1,226,1,149,5,1029,6,1,42,1,9,582,3,1,2,5,4,40,3,4,1,165,2,573,4,387,2,153,11,49,4,123,1,54,15,
   41,1,2,2,10,3,49,4,2,2,2,1,4,1,10,1,50,3,36,5,1,8,62,1,12,2,52,9,10,4,2,1,95,3,2,1,1,2,6,1,160,1,
   3,8,21,2,57,2,3,1,37,7,3,5,195,8,2,3,1,1,23,1,84,6,1,1,4,2,1,2,238,4,6,2,1,2,27,2,85,8,2,1,1,2,
   106,1,1,1,2,6,1,1,101,3,2,4,1,5,259,9,1,2,256,2,1,1,4,1,144,4,2,2,4,1,32,10,40,6,2,4,8,1,9,6,2,3,
   46,13,1,2,406,7,1,6,1,1,82,22,2,7,1,2,1,2,122,6,3,1,1,2,1,7,1,1,72,2,3,1,1,1,347,2,5435,9,14007,
   5,59,7,9,4,1035,1,63,17,64,2,1,2,16395,4,1,7,1,2,3230,2,1,4,4700,46,2,23,544,3,9,16,2,7,30,4,148,
   3,1979,55,4,50,8,1,14,1,22,5,1,15,1360,7,1,17,2,7,1,2,1,5,261,14,368,1,61,4,1504,7,109,8,2735,5,
   789505,1,30,96,128,240]

end Replatform.Text

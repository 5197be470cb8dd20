import HostScript.Text.CodeRange

/-!
# Letter case

Upper and lower case of a text, character by character: most letters have one counterpart at a
fixed distance, a few expand to several characters. The capital sigma is the one letter whose lower
case depends on its neighbours: at the end of a word it becomes the final sigma.
-/

set_option autoImplicit false

namespace HostScript.Text

/-- A run of letters whose counterparts lie at one distance: the first letter, how many letters the
run has, the step between them, and the counterpart of the first. -/
structure CaseRun where
  first : Nat
  count : Nat
  step : Nat
  target : Nat

/-- The counterpart of `n` if the run covers it. -/
def CaseRun.map? (r : CaseRun) (n : Nat) : Option Nat :=
  if r.first ≤ n ∧ n < r.first + r.count * r.step ∧ (n - r.first) % r.step = 0 then
    some (r.target + (n - r.first))
  else none

/-- The run of the counterparts, with their own counterparts. -/
def CaseRun.inverse (r : CaseRun) : CaseRun := ⟨r.target, r.count, r.step, r.first⟩

/-- The runs of a table: first those of several letters, then the single letters with their counterparts. -/
def caseRuns (rows : List (Nat × Nat × Nat × Nat)) (letters : List (Nat × Nat)) : List CaseRun :=
  (rows.map fun (first, count, step, target) => ⟨first, count, step, target⟩) ++
    letters.map fun (letter, target) => ⟨letter, 1, 1, target⟩

/-- Small letters and capitals that are each other's only counterpart. -/
def pairedRuns : List CaseRun := caseRuns [
  (97, 26, 1, 65), (224, 23, 1, 192), (248, 7, 1, 216), (257, 24, 2, 256), (307, 3, 2, 306), (314, 8, 2, 313),
  (331, 23, 2, 330), (378, 3, 2, 377), (387, 2, 2, 386), (417, 3, 2, 416), (436, 2, 2, 435), (462, 8, 2, 461),
  (479, 9, 2, 478), (505, 20, 2, 504), (547, 9, 2, 546), (575, 2, 1, 11390), (583, 5, 2, 582), (598, 2, 1, 393),
  (650, 2, 1, 433), (881, 2, 2, 880), (891, 3, 1, 1021), (941, 3, 1, 904), (945, 17, 1, 913), (963, 9, 1, 931),
  (973, 2, 1, 910), (985, 12, 2, 984), (1072, 32, 1, 1040), (1104, 16, 1, 1024), (1121, 17, 2, 1120),
  (1163, 27, 2, 1162), (1218, 7, 2, 1217), (1233, 48, 2, 1232), (1377, 38, 1, 1329), (4304, 43, 1, 7312),
  (4349, 3, 1, 7357), (5112, 6, 1, 5104), (7681, 75, 2, 7680), (7841, 48, 2, 7840), (7936, 8, 1, 7944),
  (7952, 6, 1, 7960), (7968, 8, 1, 7976), (7984, 8, 1, 7992), (8000, 6, 1, 8008), (8017, 4, 2, 8025),
  (8032, 8, 1, 8040), (8048, 2, 1, 8122), (8050, 4, 1, 8136), (8054, 2, 1, 8154), (8056, 2, 1, 8184),
  (8058, 2, 1, 8170), (8060, 2, 1, 8186), (8112, 2, 1, 8120), (8144, 2, 1, 8152), (8160, 2, 1, 8168),
  (8560, 16, 1, 8544), (9424, 26, 1, 9398), (11312, 48, 1, 11264), (11368, 3, 2, 11367), (11393, 50, 2, 11392),
  (11500, 2, 2, 11499), (11520, 38, 1, 4256), (42561, 23, 2, 42560), (42625, 14, 2, 42624),
  (42787, 7, 2, 42786), (42803, 31, 2, 42802), (42874, 2, 2, 42873), (42879, 5, 2, 42878), (42897, 2, 2, 42896),
  (42903, 10, 2, 42902), (42933, 8, 2, 42932), (42952, 2, 2, 42951), (42957, 8, 2, 42956), (43888, 80, 1, 5024),
  (65345, 26, 1, 65313), (66600, 40, 1, 66560), (66776, 36, 1, 66736), (66967, 11, 1, 66928),
  (66979, 15, 1, 66940), (66995, 7, 1, 66956), (67003, 2, 1, 66964), (68800, 51, 1, 68736),
  (68976, 22, 1, 68944), (71872, 32, 1, 71840), (93792, 32, 1, 93760), (93883, 25, 1, 93856),
  (125218, 34, 1, 125184)] [
  (255, 376), (384, 579), (392, 391), (396, 395), (402, 401), (405, 502), (409, 408), (410, 573), (411, 42972),
  (414, 544), (424, 423), (429, 428), (432, 431), (441, 440), (445, 444), (447, 503), (454, 452), (457, 455),
  (460, 458), (477, 398), (499, 497), (501, 500), (572, 571), (578, 577), (592, 11375), (593, 11373),
  (594, 11376), (595, 385), (596, 390), (601, 399), (603, 400), (604, 42923), (608, 403), (609, 42924),
  (611, 404), (612, 42955), (613, 42893), (614, 42922), (616, 407), (617, 406), (618, 42926), (619, 11362),
  (620, 42925), (623, 412), (625, 11374), (626, 413), (629, 415), (637, 11364), (640, 422), (642, 42949),
  (643, 425), (647, 42929), (648, 430), (649, 580), (652, 581), (658, 439), (669, 42930), (670, 42928),
  (887, 886), (940, 902), (972, 908), (983, 975), (1010, 1017), (1011, 895), (1016, 1015), (1019, 1018),
  (1231, 1216), (7306, 7305), (7545, 42877), (7549, 11363), (7566, 42950), (8165, 8172), (8526, 8498),
  (8580, 8579), (11361, 11360), (11365, 570), (11366, 574), (11379, 11378), (11382, 11381), (11507, 11506),
  (11559, 4295), (11565, 4301), (42892, 42891), (42900, 42948), (42998, 42997), (43859, 42931)]

/-- Letters with a single upper case counterpart. -/
def upperRuns : List CaseRun := pairedRuns ++ caseRuns [(7299, 2, 1, 1057)] [
  (181, 924), (305, 73), (383, 83), (453, 452), (456, 455), (459, 458), (498, 497), (837, 921), (962, 931),
  (976, 914), (977, 920), (981, 934), (982, 928), (1008, 922), (1009, 929), (1013, 917), (7296, 1042),
  (7297, 1044), (7298, 1054), (7301, 1058), (7302, 1066), (7303, 1122), (7304, 42570), (7835, 7776),
  (8126, 921)]

/-- Letters with a single lower case counterpart. -/
def lowerRuns : List CaseRun := pairedRuns.map CaseRun.inverse ++ caseRuns [
  (8072, 8, 1, 8064), (8088, 8, 1, 8080), (8104, 8, 1, 8096)] [
  (453, 454), (456, 457), (459, 460), (498, 499), (1012, 952), (7838, 223), (8124, 8115), (8140, 8131),
  (8188, 8179), (8486, 969), (8490, 107), (8491, 229)]

/-- Letters whose upper case has several characters. -/
def upperExpansions : List (Nat × List Nat) :=
  -- vowels with an iota below: the capital and a capital iota
  [(8064, 7944), (8072, 7944), (8080, 7976), (8088, 7976), (8096, 8040), (8104, 8040)].flatMap
    (fun (vowel, capital) => (List.range 8).map fun n => (vowel + n, [capital + n, 921])) ++ [
  (223, [83, 83]), (329, [700, 78]), (496, [74, 780]), (912, [921, 776, 769]), (944, [933, 776, 769]),
  (1415, [1333, 1362]), (7830, [72, 817]), (7831, [84, 776]), (7832, [87, 778]), (7833, [89, 778]),
  (7834, [65, 702]), (8016, [933, 787]), (8018, [933, 787, 768]), (8020, [933, 787, 769]),
  (8022, [933, 787, 834]), (8114, [8122, 921]), (8115, [913, 921]), (8116, [902, 921]), (8118, [913, 834]),
  (8119, [913, 834, 921]), (8124, [913, 921]), (8130, [8138, 921]), (8131, [919, 921]), (8132, [905, 921]),
  (8134, [919, 834]), (8135, [919, 834, 921]), (8140, [919, 921]), (8146, [921, 776, 768]),
  (8147, [921, 776, 769]), (8150, [921, 834]), (8151, [921, 776, 834]), (8162, [933, 776, 768]),
  (8163, [933, 776, 769]), (8164, [929, 787]), (8166, [933, 834]), (8167, [933, 776, 834]), (8178, [8186, 921]),
  (8179, [937, 921]), (8180, [911, 921]), (8182, [937, 834]), (8183, [937, 834, 921]), (8188, [937, 921]),
  (64256, [70, 70]), (64257, [70, 73]), (64258, [70, 76]), (64259, [70, 70, 73]), (64260, [70, 70, 76]),
  (64261, [83, 84]), (64262, [83, 84]), (64275, [1348, 1350]), (64276, [1348, 1333]), (64277, [1348, 1339]),
  (64278, [1358, 1350]), (64279, [1348, 1341])]

/-- Letters whose lower case has several characters. -/
def lowerExpansions : List (Nat × List Nat) := [
  (304, [105, 775])]

/-- Code points of letters that have case. -/
def casedRanges : CodeRanges := .ofLengths [
  65,26,6,26,47,1,10,1,4,1,5,23,1,31,1,195,1,4,4,208,2,35,7,2,30,5,96,1,42,4,2,2,2,4,1,1,6,1,1,3,1,1,1,20,1,
  83,1,139,8,166,1,38,9,41,2839,38,1,1,5,1,2,43,1,4,672,86,2,6,2178,11,5,43,2,3,64,192,64,278,2,6,2,38,2,6,2,
  8,1,1,1,1,1,1,1,31,2,53,1,7,1,1,3,3,1,7,3,4,2,6,4,13,5,3,1,7,116,1,13,1,16,13,101,1,4,1,2,10,1,1,3,5,6,1,1,
  1,1,1,1,4,1,6,4,1,2,4,5,5,4,1,17,32,3,2,817,52,1814,229,6,4,3,2,12,38,1,1,5,1,30994,46,18,30,132,102,3,4,1,
  77,20,6,1,3,821,43,1,14,6,80,20288,7,12,5,1033,26,6,26,1189,80,96,36,4,36,116,11,1,15,1,7,1,2,1,11,1,15,1,7,
  1,2,451,1,2,3,1,42,1,9,1221,51,13,51,93,22,10,22,2842,64,21856,64,32,25,2,25,25900,85,1,71,1,2,2,1,2,2,2,4,
  1,12,1,1,1,7,1,65,1,4,2,8,1,7,1,28,1,4,1,5,1,1,3,7,1,340,2,25,1,25,1,31,1,25,1,31,1,25,1,31,1,25,1,31,1,25,
  1,8,1844,10,1,20,6,6,261,62,2194,68,2028,26,6,26,6,26]

/-- Code points that are passed over when the neighbours of a letter are looked at. -/
def caseIgnorableRanges : CodeRanges := .ofLengths [
  39,1,6,1,11,1,35,1,1,1,71,1,4,1,1,1,4,1,2,2,503,192,4,2,4,1,9,2,1,1,251,7,207,1,5,1,49,45,1,1,1,2,1,2,1,1,
  44,1,11,6,10,11,1,1,35,1,10,21,16,1,101,8,1,10,1,4,33,1,1,1,30,27,91,11,58,11,4,1,2,1,24,24,43,3,44,1,7,2,5,
  9,41,58,55,1,1,1,4,8,4,1,3,7,10,2,13,1,15,1,58,1,4,4,8,1,20,2,26,1,2,2,57,1,4,2,4,2,2,3,3,1,30,2,3,1,11,2,
  57,1,4,5,1,2,4,1,20,2,22,6,1,1,58,1,2,1,1,4,8,1,7,2,11,2,30,1,61,1,12,1,50,1,3,1,55,1,1,3,5,3,1,4,7,2,11,2,
  29,1,58,1,2,1,6,1,5,2,20,2,28,2,57,2,4,4,8,1,20,2,29,1,72,1,7,3,1,1,90,1,2,7,11,9,98,1,2,9,9,1,1,7,73,2,27,
  1,1,1,1,1,55,14,1,5,1,2,5,11,1,36,9,1,102,4,1,6,1,2,2,2,25,2,4,3,16,4,13,1,2,2,6,1,15,1,94,1,608,3,946,3,29,
  2,30,2,30,2,64,2,1,7,8,1,2,11,3,1,5,1,45,5,51,1,65,2,34,1,118,3,4,2,9,1,6,3,219,2,2,1,58,1,1,7,1,1,1,1,2,8,
  6,10,2,1,39,1,8,46,2,12,20,4,48,1,1,5,1,1,5,1,40,9,12,2,32,4,2,2,1,3,56,1,1,2,3,1,1,3,58,8,2,2,64,6,82,3,1,
  13,1,7,4,1,6,1,3,2,50,63,13,1,34,101,445,1,1,3,11,3,13,3,13,3,13,2,12,5,8,2,10,1,2,1,2,5,49,5,1,10,1,1,13,1,
  16,13,51,33,2955,2,113,3,125,1,15,1,96,32,47,1,469,1,36,4,3,5,5,1,93,6,93,3,28438,1,1250,6,270,1,98,4,1,10,
  1,1,28,4,80,2,14,34,78,1,23,3,102,4,3,2,8,1,3,1,4,1,25,2,5,1,151,2,26,18,13,1,38,8,25,11,46,3,48,1,2,4,2,2,
  17,1,21,2,66,6,2,2,2,2,12,1,8,1,35,1,11,1,51,1,1,3,2,2,5,2,1,1,27,1,14,2,5,2,1,1,100,5,9,3,121,1,2,1,4,1,
  20272,1,147,17,573,16,3,1,12,16,34,1,2,1,169,1,7,1,6,1,11,1,35,1,1,1,47,1,45,2,67,1,21,3,513,1,226,1,149,5,
  1029,6,1,42,1,9,582,3,1,2,5,4,40,3,4,1,165,2,573,4,38,1,26,5,1,1,315,2,24,1,52,6,70,11,49,4,123,1,54,15,41,
  1,2,2,10,3,49,4,2,2,2,1,4,1,10,1,50,3,36,5,1,8,62,1,12,2,52,9,10,4,2,1,95,3,2,1,1,2,6,1,2,1,157,1,3,8,21,2,
  57,2,3,1,37,7,3,5,70,6,13,1,1,1,1,1,14,2,85,8,2,3,1,1,23,1,84,6,1,1,4,2,1,2,238,4,6,2,1,2,27,2,85,8,2,1,1,2,
  106,1,1,1,2,6,1,1,101,1,1,1,2,4,1,5,259,9,1,2,256,2,1,1,4,1,144,4,2,2,4,1,32,10,40,6,2,4,8,1,9,6,2,3,46,13,
  1,2,198,1,1,3,1,1,201,7,1,6,1,1,82,22,2,7,1,2,1,2,122,6,3,1,1,2,1,7,1,1,72,2,3,1,1,1,65,1,281,2,11,2,52,5,5,
  1,1,1,23,1,5333,17,6,15,11464,12,3,3,2496,5,59,7,9,4,508,3,40,2,482,1,63,17,64,2,1,2,13,2,16380,4,1,7,1,2,
  3230,2,1,4,4700,46,2,23,544,3,9,16,2,7,30,4,148,3,1979,55,4,50,8,1,14,1,22,5,1,15,1360,7,1,17,2,7,1,2,1,5,5,
  62,33,1,160,14,368,1,61,4,507,5,254,2,243,1,2,1,7,2,5,1,9,1,464,7,109,8,2735,5,789505,1,30,96,128,240]

/-- Maps one character by a table of expansions and a table of runs. -/
def mapCase (expansions : List (Nat × List Nat)) (runs : List CaseRun) (c : Char) : List Char :=
  match expansions.lookup c.toNat with
  | some ns => ns.map Char.ofNat
  | none =>
    match runs.findSome? (·.map? c.toNat) with
    | some n => [Char.ofNat n]
    | none => [c]

/-- The upper case of one character. -/
def upperChar (c : Char) : List Char :=
  if c.toNat < 128 then [c.toUpper] else mapCase upperExpansions upperRuns c

/-- The lower case of one character, wherever it stands. -/
def lowerChar (c : Char) : List Char :=
  if c.toNat < 128 then [c.toLower] else mapCase lowerExpansions lowerRuns c

/-- The upper case of a text. -/
def upperCase (s : String) : String :=
  String.ofList (s.toList.flatMap upperChar)

/-- Whether the first character that is not passed over is a letter with case. -/
def reachesCased (cs : List Char) : Bool :=
  match cs.dropWhile caseIgnorableRanges.contains with
  | [] => false
  | c :: _ => casedRanges.contains c

/-- The lower case of the characters `cs` that follow the reversed characters `before`. A capital
sigma after a letter and before no letter is final. -/
def lowerFrom (before : List Char) : List Char → List Char
  | [] => []
  | c :: cs =>
    let here :=
      if c == 'Σ' then
        if reachesCased before && !reachesCased cs then ['ς'] else ['σ']
      else lowerChar c
    here ++ lowerFrom (c :: before) cs

/-- The lower case of a text. -/
def lowerCase (s : String) : String :=
  String.ofList (lowerFrom [] s.toList)

end HostScript.Text

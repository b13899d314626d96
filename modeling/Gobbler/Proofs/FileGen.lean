import Gobbler.Model.FileGen
import Gobbler.Proofs.Vector

namespace Gobbler.Proofs
open Effect FileGen

variable {host : Host} {block : Nat} {g : Char} {count k : Nat}

/-- Every command succeeds, and `dd` leaves a file of `bs` bytes for blocks of up
to `block` bytes. GNU `dd` on Linux does so up to 2147479552 bytes, which is as much
as one read returns. -/
structure Host.Works (host : Host) (block : Nat) : Prop where
  mount : host.mount = true
  dd : ∀ n size bytes, ddBytes size = some bytes → bytes ≤ block → host.dd n size = some bytes
  chmod : ∀ n, host.chmod n = true

/-- A host whose `dd` stops where one read does. -/
def linuxHost : Host where
  mount := true
  dd _ size := (ddBytes size).map (min 2147479552)
  chmod _ := true

theorem linuxHost_works (h : block ≤ 2147479552) : Host.Works linuxHost block := by
  refine ⟨rfl, ?_, fun _ => rfl⟩
  intro _ size bytes hsize hle
  simp only [linuxHost, hsize, Option.map_some, Option.some.injEq]
  omega

/-- The bytes that the letter of a granularity stands for. -/
def unitBytes (g : Char) : Nat := if g = 'M' then 1048576 else 1024

/-- The size of a class in units of the granularity. -/
def classSize (k : Nat) : Nat := 4 * 2 ^ k

/-- The size of a class as it stands in its file names. -/
def sizeText (g : Char) (k : Nat) : List Char := Nat.toDigits 10 (classSize k) ++ [g]

theorem decimal_natCast (n : Nat) : decimal (n : Int) = Nat.toDigits 10 n := by
  have hpos : ¬(n : Int) < 0 := by omega
  rw [decimal, if_neg hpos, Int.natAbs_natCast]

theorem arith_natCast {n : Nat} (h : n < 2 ^ 63) : arith (n : Int) = n :=
  Int.bmod_eq_of_le (by omega) (by omega)

theorem numberEnds_cons {c : Char} {cs : List Char} (h : c.isDigit = false) : NumberEnds (c :: cs) := h

theorem toDigits_inj {a b : Nat} {rest rest' : List Char} (hr : NumberEnds rest)
    (hr' : NumberEnds rest') (h : Nat.toDigits 10 a ++ rest = Nat.toDigits 10 b ++ rest') :
    a = b ∧ rest = rest' := by
  have hdigits := congrArg digits h
  have hrest := congrArg afterDigits h
  rw [digits_toDigits hr, digits_toDigits hr'] at hdigits
  rw [afterDigits_toDigits hr, afterDigits_toDigits hr'] at hrest
  have hvalue := congrArg digitsValue hdigits
  rw [digitsValue_toDigits, digitsValue_toDigits] at hvalue
  exact ⟨hvalue, hrest⟩

/-- A file name tells its class and its number. -/
theorem fileName_inj {m i j : Nat} (hg : g.isDigit = false)
    (h : fileName (sizeText g k) i = fileName (sizeText g m) j) : k = m ∧ i = j := by
  simp only [fileName, sizeText, decimal_natCast, List.append_assoc, List.cons_append,
    List.nil_append] at h
  obtain ⟨hsize, hrest⟩ := toDigits_inj (numberEnds_cons hg) (numberEnds_cons hg) h
  have hnumber := (List.cons.inj (List.cons.inj hrest).2).2
  have hdot : NumberEnds ".txt".toList := rfl
  obtain ⟨hij, _⟩ := toDigits_inj hdot hdot hnumber
  have hpow : 2 ^ k = 2 ^ m := by
    simp only [classSize] at hsize
    omega
  exact ⟨Nat.pow_right_injective (Nat.le_refl 2) hpow, hij⟩

theorem granularity_not_digit (hg : g = 'M' ∨ g = 'K') : g.isDigit = false := by
  rcases hg with rfl | rfl <;> rfl

/-- `dd` reads the text of a size as the bytes of its class. -/
theorem ddBytes_sizeText (hg : g = 'M' ∨ g = 'K') (k : Nat) :
    ddBytes (sizeText g k) = some (classSize k * unitBytes g) := by
  have hend : NumberEnds [g] := granularity_not_digit hg
  rw [ddBytes, sizeText, digits_toDigits hend, afterDigits_toDigits hend, if_neg Nat.toDigits_ne_nil,
    digitsValue_toDigits]
  rcases hg with rfl | rfl <;> rfl

theorem unitBytes_pos (g : Char) : 0 < unitBytes g := by
  unfold unitBytes
  split <;> decide

section multiplier

variable (hfit : classSize k * unitBytes g < 2 ^ 63)
include hfit

theorem classSize_fits : classSize k < 2 ^ 63 :=
  Nat.lt_of_le_of_lt (Nat.le_mul_of_pos_right _ (unitBytes_pos g)) hfit

/-- The multiplier of the loops gives the size of the class. -/
theorem arith_size : arith (4 * (2 ^ k : Nat)) = classSize k := by
  rw [← arith_natCast (classSize_fits hfit)]
  push_cast [classSize]
  rfl

theorem arith_next : arith ((2 ^ k : Nat) * multiplier) = (2 ^ (k + 1) : Nat) := by
  have hpow : 2 ^ (k + 1) < 2 ^ 63 := by
    have hlt := classSize_fits hfit
    simp only [classSize, pow_succ] at hlt ⊢
    omega
  rw [← arith_natCast hpow, pow_succ]
  push_cast
  rfl

theorem arith_bytes : arith (4 * (2 ^ k : Nat) * (unitBytes g : Int)) = (classSize k * unitBytes g : Nat) := by
  rw [← arith_natCast hfit]
  push_cast [classSize]
  rfl

end multiplier

/-- The entries that are printed for a class. -/
def entriesOf (g : Char) (count k : Nat) : List PathEntry :=
  ((List.range' 1 count).map fun i => ⟨0, some (fileName (sizeText g k) i)⟩) ++ [⟨0, none⟩]

/-- Some files were created, and nothing was printed. -/
structure Created (size : List Char) (is : List Nat) (bytes : Nat) (s t : Generated) : Prop where
  arrays : t.arrays = s.arrays
  fileLst : t.fileLst = s.fileLst
  enumerators : t.enumerators = s.enumerators
  files : ∀ i ∈ is, t.image (fileName size i) = some bytes
  others : ∀ p, (∀ i ∈ is, p ≠ fileName size i) → t.image p = s.image p

theorem createFile_ends (hw : Host.Works host block) {size : List Char} {bytes : Nat}
    (hsize : ddBytes size = some bytes) (hle : bytes ≤ block) (i : Nat) (s : Generated) :
    Ends (createFile host size i) s
      (fun _ t => t = { s with
        image := Function.update s.image (fileName size i) (some bytes), dds := s.dds + 1 })
      fun _ _ => False := by
  unfold createFile
  simp only [hw.dd _ size bytes hsize hle, hw.chmod, if_true, ends_bind, ends_get, ends_set, ends_pure]

theorem arrayEntries_ends (hw : Host.Works host block) {size : List Char} {bytes : Nat}
    (hsize : ddBytes size = some bytes) (hle : bytes ≤ block) (is : List Nat) (s : Generated) :
    Ends (arrayEntries host size is) s
      (fun entries t => entries = (is.map fun i => ⟨0, some (fileName size i)⟩) ++ [⟨0, none⟩] ∧
        Created size is bytes s t) fun _ _ => False := by
  induction is generalizing s with
  | nil => exact ⟨rfl, rfl, rfl, rfl, nofun, fun _ _ => rfl⟩
  | cons i is ih =>
    unfold arrayEntries
    apply (createFile_ends hw hsize hle i s).bind
    rintro _ t rfl
    apply (ih _).bind
    rintro entries u ⟨rfl, harrays, hlst, henum, hfiles, hothers⟩
    refine ⟨rfl, harrays, hlst, henum, List.forall_mem_cons.mpr ⟨?_, hfiles⟩, fun p hp => ?_⟩
    · by_cases hsame : ∃ j ∈ is, fileName size i = fileName size j
      · obtain ⟨j, hj, heq⟩ := hsame
        rw [heq]
        exact hfiles j hj
      · rw [hothers _ fun j hj heq => hsame ⟨j, hj, heq⟩]
        exact Function.update_self _ _ _
    · obtain ⟨hne, hrest⟩ := List.forall_mem_cons.mp hp
      rw [hothers p hrest]
      exact Function.update_of_ne hne _ _

/-- The files of the classes from `k` on were created, and their arrays printed. -/
structure Arrayed (g : Char) (count k : Nat) (types : List (List Char)) (s t : Generated) : Prop where
  arrays : t.arrays = s.arrays ++
    types.mapIdx fun m type => (fileArray type, entriesOf g count (k + m))
  fileLst : t.fileLst = s.fileLst
  enumerators : t.enumerators = s.enumerators
  files : ∀ m, m < types.length → ∀ i ∈ List.range' 1 count,
    t.image (fileName (sizeText g (k + m)) i) = some (classSize (k + m) * unitBytes g)
  others : ∀ p, (∀ m, m < types.length → ∀ i ∈ List.range' 1 count,
    p ≠ fileName (sizeText g (k + m)) i) → t.image p = s.image p

theorem fileArrays_ends (hw : Host.Works host block) (hg : g = 'M' ∨ g = 'K')
    (types : List (List Char)) (k : Nat)
    (hfit : ∀ m, m < types.length → classSize (k + m) * unitBytes g < 2 ^ 63)
    (hle : ∀ m, m < types.length → classSize (k + m) * unitBytes g ≤ block) (s : Generated) :
    Ends (fileArrays host g count types (2 ^ k : Nat)) s (fun _ t => Arrayed g count k types s t)
      fun _ _ => False := by
  induction types generalizing k s with
  | nil => exact ⟨(List.append_nil _).symm, rfl, rfl, nofun, fun _ _ => rfl⟩
  | cons type types ih =>
    have hhead := hfit 0 (Nat.zero_lt_succ _)
    have hblock := hle 0 (Nat.zero_lt_succ _)
    rw [Nat.add_zero] at hhead hblock
    have hsize : ddBytes (decimal (arith (4 * (2 ^ k : Nat))) ++ [g]) =
        some (classSize k * unitBytes g) := by
      rw [arith_size hhead, decimal_natCast]
      exact ddBytes_sizeText hg k
    have htext : decimal (arith (4 * (2 ^ k : Nat))) ++ [g] = sizeText g k := by
      rw [arith_size hhead, decimal_natCast, sizeText]
    have hnext : ∀ m, k + 1 + m = k + (m + 1) := fun m => by omega
    unfold fileArrays
    apply (arrayEntries_ends hw hsize hblock (List.range' 1 count) s).bind
    rintro entries t ⟨rfl, hcreated⟩
    rw [htext] at hcreated ⊢
    simp only [ends_bind, ends_modify, arith_next hhead]
    refine (ih (k + 1) (fun m hm => ?_) (fun m hm => ?_) _).imp ?_
    · rw [hnext]
      exact hfit (m + 1) (Nat.succ_lt_succ hm)
    · rw [hnext]
      exact hle (m + 1) (Nat.succ_lt_succ hm)
    · intro _ u hq
      obtain ⟨harrays, hlst, henum, hfiles, hothers⟩ := hq
      have hown : ∀ i ∈ List.range' 1 count, u.image (fileName (sizeText g k) i) =
          some (classSize k * unitBytes g) := by
        intro i hi
        rw [hothers _ fun m _ j _ heq => ?_]
        · exact hcreated.files i hi
        · have hsame := (fileName_inj (granularity_not_digit hg) heq).1
          omega
      refine ⟨?_, hlst.trans hcreated.fileLst, henum.trans hcreated.enumerators, ?_, ?_⟩
      · rw [harrays, hcreated.arrays, List.append_assoc, List.mapIdx_cons]
        simp only [hnext]
        rfl
      · rintro (_ | m) hm i hi
        · exact hown i hi
        · rw [← hnext]
          exact hfiles m (Nat.lt_of_succ_lt_succ hm) i hi
      · intro p hp
        rw [hothers p fun m hm i hi => hnext m ▸ hp (m + 1) (Nat.succ_lt_succ hm) i hi]
        exact hcreated.others p (hp 0 (Nat.zero_lt_succ _))

/-- `file_lst` is printed with the sizes in bytes. -/
theorem sizeTable_ends (types : List (List Char)) (k : Nat)
    (hfit : ∀ m, m < types.length → classSize (k + m) * unitBytes g < 2 ^ 63) (s : Generated) :
    Ends (sizeTable (unitBytes g) types (2 ^ k : Nat)) s
      (fun _ t => t = { s with fileLst := s.fileLst ++ types.mapIdx fun m type =>
        ⟨(classSize (k + m) * unitBytes g : Nat), fileArray type, 0⟩ })
      fun _ _ => False := by
  induction types generalizing k s with
  | nil =>
    change s = _
    rw [List.mapIdx_nil, List.append_nil]
  | cons type types ih =>
    have hhead := hfit 0 (Nat.zero_lt_succ _)
    rw [Nat.add_zero] at hhead
    have hnext : ∀ m, k + 1 + m = k + (m + 1) := fun m => by omega
    unfold sizeTable
    simp only [ends_bind, ends_modify, arith_next hhead, arith_bytes hhead]
    refine (ih (k + 1) (fun m hm => ?_) _).imp ?_
    · rw [hnext]
      exact hfit (m + 1) (Nat.succ_lt_succ hm)
    · rintro _ t rfl
      simp only [hnext, List.mapIdx_cons, List.append_assoc]
      rfl

theorem scaleOf_eq (hg : g = 'M' ∨ g = 'K') : scaleOf g = some (unitBytes g : Int) := by
  rcases hg with rfl | rfl <;> rfl

/-- A successful run prints `n` ascending classes, each with an array of `count`
unmarked paths and a NULL; every path names a file of the size of its class. -/
structure TableCorrect (g : Char) (count n : Nat) (out : Generated) : Prop where
  classes : out.fileLst.length = n
  max : out.enumerators.idxOf "max".toList = n
  ascending : out.fileLst.Pairwise fun c d => c.size < d.size
  size : ∀ (k : Nat) (c : SizeEntry), out.fileLst[k]? = some c →
    c.size = (4 * 2 ^ k * unitBytes g : Nat)
  array : ∀ c ∈ out.fileLst, ∃ paths : List (List Char),
    out.arrays.lookup c.paths = some (paths.map (fun p => ⟨0, some p⟩) ++ [⟨0, none⟩]) ∧
      paths.length = count ∧
      ∀ p ∈ paths, ∃ bytes : Nat, out.image p = some bytes ∧ (bytes : Int) = c.size
  distinct : (out.arrays.flatMap fun a => a.2.filterMap PathEntry.path).Nodup

theorem lookup_of_nodup {α β : Type} [BEq α] [LawfulBEq α] {l : List (α × β)} {a : α} {b : β}
    (h : (l.map Prod.fst).Nodup) (hm : (a, b) ∈ l) : l.lookup a = some b := by
  induction l with
  | nil => cases hm
  | cons p l ih =>
    obtain ⟨hp, hl⟩ := List.nodup_cons.mp h
    rcases List.mem_cons.mp hm with rfl | hm
    · exact List.lookup_cons_self
    · have hne : a ≠ p.1 := by
        rintro rfl
        exact hp (List.mem_map.mpr ⟨(p.1, b), hm, rfl⟩)
      rw [List.lookup_cons, beq_false_of_ne hne]
      exact ih hl hm

/-- The arrays as they are printed for the classes of `types`. -/
def arraysOf (g : Char) (count : Nat) (types : List (List Char)) :
    List (List Char × List PathEntry) :=
  types.mapIdx fun k type => (fileArray type, entriesOf g count k)

theorem entriesOf_paths (g : Char) (count k : Nat) :
    (entriesOf g count k).filterMap PathEntry.path =
      (List.range' 1 count).map (fileName (sizeText g k)) := by
  rw [entriesOf, List.filterMap_append, List.filterMap_map]
  simp

theorem arraysOf_names (g : Char) (count : Nat) (types : List (List Char)) :
    (arraysOf g count types).map Prod.fst = types.map fileArray := by
  apply List.ext_getElem?
  intro k
  simp only [arraysOf, List.getElem?_map, List.getElem?_mapIdx]
  cases types[k]? <;> rfl

theorem fileArray_inj {a b : List Char} (h : fileArray a = fileArray b) : a = b :=
  List.append_cancel_left h

theorem arraysOf_lookup {types : List (List Char)} {type : List Char} (hd : types.Nodup)
    (h : types[k]? = some type) :
    (arraysOf g count types).lookup (fileArray type) = some (entriesOf g count k) := by
  apply lookup_of_nodup
  · rw [arraysOf_names]
    exact hd.map fun _ _ => fileArray_inj
  · apply List.mem_of_getElem? (i := k)
    rw [arraysOf, List.getElem?_mapIdx, h]
    rfl

theorem arraysOf_distinct (hg : g.isDigit = false) (count : Nat) (types : List (List Char)) :
    ((arraysOf g count types).flatMap fun a => a.2.filterMap PathEntry.path).Nodup := by
  have hpaths : ∀ i (hi : i < (arraysOf g count types).length),
      (arraysOf g count types)[i].2.filterMap PathEntry.path =
        (List.range' 1 count).map (fileName (sizeText g i)) := by
    intro i hi
    simp only [arraysOf, List.getElem_mapIdx]
    exact entriesOf_paths g count i
  apply List.nodup_flatMap.mpr
  constructor
  · intro a ha
    obtain ⟨i, hi, rfl⟩ := List.getElem_of_mem ha
    rw [hpaths i hi]
    exact List.Nodup.map (fun _ _ heq => (fileName_inj hg heq).2) List.nodup_range'
  · apply List.pairwise_iff_getElem.mpr
    intro i j hi hj hij p hp hp'
    simp only [hpaths] at hp hp'
    obtain ⟨a, _, rfl⟩ := List.mem_map.mp hp
    obtain ⟨b, _, heq⟩ := List.mem_map.mp hp'
    have hsame := (fileName_inj hg heq).1
    omega

theorem classes_ascend {types : List (List Char)} :
    (types.mapIdx fun k type => (⟨(classSize k * unitBytes g : Nat), fileArray type, 0⟩ :
      SizeEntry)).Pairwise fun c d => c.size < d.size := by
  apply List.pairwise_iff_getElem.mpr
  intro i j hi hj hij
  simp only [List.getElem_mapIdx, classSize]
  have hpow : 2 ^ i < 2 ^ j := Nat.pow_lt_pow_right (by decide) hij
  have hsize : 4 * 2 ^ i * unitBytes g < 4 * 2 ^ j * unitBytes g :=
    Nat.mul_lt_mul_of_pos_right (by omega) (unitBytes_pos g)
  exact_mod_cast hsize

/-- No item is taken for the enumerator after the last. -/
theorem idxOf_max (items : List (List Char)) :
    (items.map ("Item".toList ++ ·) ++ ["max".toList]).idxOf "max".toList = items.length := by
  have hnot : "max".toList ∉ items.map ("Item".toList ++ ·) := by
    intro hm
    obtain ⟨item, _, heq⟩ := List.mem_map.mp hm
    have hhead := (List.cons.inj heq).1
    contradiction
  rw [List.idxOf_append_of_notMem hnot, List.length_map, List.idxOf_cons_self, Nat.add_zero]

theorem tableCorrect_of_arrayed {items : List (List Char)} {s t : Generated}
    (hg : g.isDigit = false) (hd : items.Nodup) (hs : s.arrays = []) (hl : s.fileLst = [])
    (hm : s.enumerators = items.map ("Item".toList ++ ·) ++ ["max".toList])
    (h : Arrayed g count 0 (items.map ("Item".toList ++ ·)) s t) :
    TableCorrect g count items.length { t with
      fileLst := t.fileLst ++ (items.map ("Item".toList ++ ·)).mapIdx fun k type =>
        ⟨(classSize (0 + k) * unitBytes g : Nat), fileArray type, 0⟩ } := by
  have hd' : (items.map ("Item".toList ++ ·)).Nodup := hd.map fun _ _ => List.append_cancel_left
  have hlst : t.fileLst = [] := h.fileLst.trans hl
  have harrays : t.arrays = arraysOf g count (items.map ("Item".toList ++ ·)) := by
    rw [h.arrays, hs, List.nil_append, arraysOf]
    simp only [Nat.zero_add]
  simp only [Nat.zero_add, hlst, List.nil_append]
  constructor
  case classes => simp only [List.length_mapIdx, List.length_map]
  case max =>
    rw [h.enumerators, hm]
    exact idxOf_max items
  case ascending => exact classes_ascend
  case size =>
    intro k c hc
    rw [List.getElem?_mapIdx] at hc
    obtain ⟨type, _, rfl⟩ := Option.map_eq_some_iff.mp hc
    rfl
  case array =>
    intro c hc
    obtain ⟨k, hk, rfl⟩ := List.getElem_of_mem hc
    simp only [List.length_mapIdx] at hk
    simp only [List.getElem_mapIdx, harrays]
    refine ⟨(List.range' 1 count).map (fileName (sizeText g k)), ?_, ?_, ?_⟩
    · rw [arraysOf_lookup hd' (List.getElem?_eq_getElem hk), entriesOf, List.map_map]
      rfl
    · rw [List.length_map, List.length_range']
    · intro p hp
      obtain ⟨i, hi, rfl⟩ := List.mem_map.mp hp
      have hfile := h.files k hk i hi
      rw [Nat.zero_add] at hfile
      exact ⟨_, hfile, rfl⟩
  case distinct =>
    rw [harrays]
    exact arraysOf_distinct hg count _

/-- The bytes of the largest of `n` classes. -/
def largestClass (g : Char) (n : Nat) : Nat := 4 * 2 ^ (n - 1) * unitBytes g

theorem classSize_le_largest {n : Nat} (h : k < n) : classSize k * unitBytes g ≤ largestClass g n := by
  have hpow : 2 ^ k ≤ 2 ^ (n - 1) := Nat.pow_le_pow_right (by decide) (by omega)
  exact Nat.mul_le_mul_right _ (Nat.mul_le_mul_left 4 hpow)

theorem fileGen_ends {items : List (List Char)} (hw : Host.Works host (largestClass g items.length))
    (hg : g = 'M' ∨ g = 'K') (hd : items.Nodup)
    (hfit : ∀ k, k < items.length → 4 * 2 ^ k * unitBytes g < 2 ^ 63) :
    Ends (fileGen host g count items) nothing
      (fun _ out => TableCorrect g count items.length out) fun _ _ => False := by
  have hbytes : ∀ m, m < (items.map ("Item".toList ++ ·)).length →
      classSize (0 + m) * unitBytes g < 2 ^ 63 := by
    intro m hm
    rw [List.length_map] at hm
    rw [Nat.zero_add]
    exact hfit m hm
  have hblock : ∀ m, m < (items.map ("Item".toList ++ ·)).length →
      classSize (0 + m) * unitBytes g ≤ largestClass g items.length := by
    intro m hm
    rw [List.length_map] at hm
    rw [Nat.zero_add]
    exact classSize_le_largest hm
  unfold fileGen
  rw [scaleOf_eq hg]
  simp only [ends_bind, ends_modify, hw.mount, Bool.true_eq_false, if_false]
  apply (fileArrays_ends hw hg _ 0 hbytes hblock _).imp
  intro _ t harrayed
  apply (sizeTable_ends _ 0 hbytes t).imp
  rintro _ out rfl
  exact tableCorrect_of_arrayed (granularity_not_digit hg) hd rfl rfl rfl harrayed

/-- `file_gen.sh` prints a table that agrees with the files it creates. -/
theorem generated_table (host : Host) (g : Char) (hg : g = 'M' ∨ g = 'K') (count : Nat)
    (items : List (List Char)) (hd : items.Nodup) (hw : Host.Works host (largestClass g items.length))
    (hfit : ∀ k, k < items.length → 4 * 2 ^ k * unitBytes g < 2 ^ 63) :
    Ends (fileGen host g count items) nothing
      (fun _ out => TableCorrect g count items.length out) fun _ _ => False :=
  fileGen_ends hw hg hd hfit

/-- Two items, in kilobytes. -/
theorem generated_table_two :
    Ends (fileGen linuxHost 'K' 2 [['a'], ['b']]) nothing
      (fun _ out => TableCorrect 'K' 2 2 out) fun _ _ => False := by
  have hworks : Host.Works linuxHost (largestClass 'K' 2) := linuxHost_works (by decide)
  apply generated_table _ 'K' (Or.inr rfl) 2 [['a'], ['b']] (by decide) hworks
  intro k hk
  have hpow : 2 ^ k < 2 ^ 2 := Nat.pow_lt_pow_right (by decide) hk
  have hunit : unitBytes 'K' = 1024 := rfl
  rw [hunit]
  omega

/-- The classes that a compiler reads in what is printed. -/
def compiled (out : Generated) : List (Nat × List String) :=
  out.fileLst.map fun c => (c.size.toNat,
    (((out.arrays.lookup c.paths).getD []).filterMap PathEntry.path).map String.ofList)

/-- There are few classes when their sizes fit. -/
theorem classes_few {n : Nat} (hfit : ∀ k, k < n → 4 * 2 ^ k * unitBytes g < 2 ^ 63) : n < 2 ^ 31 := by
  by_contra hmany
  have hsize := hfit 61 (by omega)
  have hunit := unitBytes_pos g
  omega

/-- What the script prints is a table for the allocator. -/
theorem TableCorrect.fileTable {n : Nat} {out : Generated} (h : TableCorrect g count n out)
    (hn : 0 < n) (hfit : ∀ k, k < n → 4 * 2 ^ k * unitBytes g < 2 ^ 63) :
    ∃ table : FileTable, table.classes = compiled out := by
  have hlen : (compiled out).length = n := by rw [compiled, List.length_map, h.classes]
  have hlt := classes_few hfit
  have hsize : ∀ c ∈ out.fileLst, c.size.toNat < 2 ^ 64 := by
    intro c hc
    obtain ⟨k, hk, rfl⟩ := List.getElem_of_mem hc
    rw [h.size k _ (List.getElem?_eq_getElem hk), Int.toNat_natCast]
    have hbound := hfit k (h.classes ▸ hk)
    omega
  have hall : ∀ c ∈ compiled out, c.1 < 2 ^ 64 := by
    intro c hc
    obtain ⟨d, hd, rfl⟩ := List.mem_map.mp hc
    exact hsize d hd
  exact ⟨⟨compiled out, hlen ▸ hn, hlen ▸ hlt, hall⟩, rfl⟩

end Gobbler.Proofs

import DisconnectedYfs.YFSDirectory
import Mathlib.Data.List.TakeWhile
import Mathlib.Data.Finset.Card
import Mathlib.Data.Finset.Image

/-! Directories whose names have no separator survive being written and read again, and the search
for a fresh name ends. -/
namespace DisconnectedYfs.YFS
open Std

/-- Neither `' '` nor `':'`. -/
def Plain (name : Str) : Prop := (32 : UInt8) ∉ name ∧ (58 : UInt8) ∉ name

instance (name : Str) : Decidable (Plain name) := inferInstanceAs (Decidable (_ ∧ _))

/-- Every name is plain and every number fits in an `unsigned long long`. -/
def Dir.Wf (d : Dir) : Prop := ∀ name i, d[name]? = some i → Plain name ∧ i < 2^64

theorem dir_getElem_insert (d : Dir) (name n : Str) (i : ℕ) :
    (d.insert name i)[n]? = if name = n then some i else d[n]? := by
  simp only [ExtTreeMap.getElem?_insert, LawfulEqCmp.compare_eq_iff_eq]

theorem dir_getElem_erase (d : Dir) (name n : Str) :
    (d.erase name)[n]? = if name = n then none else d[n]? := by
  simp only [ExtTreeMap.getElem?_erase, LawfulEqCmp.compare_eq_iff_eq]

theorem Dir.Wf.insert {d : Dir} (h : d.Wf) {name : Str} {i : ℕ} (hn : Plain name)
    (hi : i < 2^64) : Dir.Wf (d.insert name i) := by
  intro n j hj
  rw [dir_getElem_insert] at hj
  split_ifs at hj with hname
  · cases hj
    exact ⟨hname ▸ hn, hi⟩
  · exact h n j hj

theorem Dir.Wf.erase {d : Dir} (h : d.Wf) (name : Str) : Dir.Wf (d.erase name) := by
  intro n j hj
  rw [dir_getElem_erase] at hj
  split_ifs at hj
  exact h n j hj

theorem Dir.Wf.empty : Dir.Wf ∅ := by
  intro n j hj
  simp at hj

section Digits

theorem filename_digit {n : ℕ} {b : UInt8} (h : b ∈ filename n) : isDigit b = true := by
  obtain ⟨ch,hch,rfl⟩ := List.mem_map.mp h
  have hd := Nat.isDigit_of_mem_toDigits (by decide) (by decide) hch
  simp only [Char.isDigit, Bool.and_eq_true, decide_eq_true_eq] at hd
  have h1 : 48 ≤ ch.toNat := hd.1
  have h2 : ch.toNat ≤ 57 := hd.2
  simp only [isDigit, Bool.and_eq_true, decide_eq_true_eq, UInt8.le_iff_toNat_le]
  have : (UInt8.ofNat ch.toNat).toNat = ch.toNat := by
    rw [UInt8.toNat_ofNat']
    omega
  rw [this]
  exact ⟨h1, h2⟩

theorem filename_ne_nil (n : ℕ) : filename n ≠ [] := by
  unfold filename
  rw [Ne, List.map_eq_nil_iff]
  exact Nat.toDigits_ne_nil

/-- A byte that is not a digit does not occur in a number. -/
theorem not_mem_filename (n : ℕ) {b : UInt8} (hb : isDigit b = false) : b ∉ filename n := by
  intro h
  rw [filename_digit h] at hb
  cases hb

/-- Reading the digits back. -/
theorem filename_value (n : ℕ) : (filename n).foldl (fun v b => 10*v+(b.toNat-48)) 0 = n := by
  have hv := Nat.ofDigitChars_ten_toDigits (n := n)
  rw [Nat.ofDigitChars_eq_foldl] at hv
  unfold filename
  rw [List.foldl_map]
  refine Eq.trans ?_ hv
  apply List.foldl_ext
  intro v ch hch
  have hd := Nat.isDigit_of_mem_toDigits (by decide) (by decide) hch
  simp only [Char.isDigit, Bool.and_eq_true, decide_eq_true_eq] at hd
  have h2 : ch.toNat ≤ 57 := hd.2
  rw [UInt8.toNat_ofNat']
  have : '0'.toNat = 48 := rfl
  omega

theorem filename_injective {m n : ℕ} (h : filename m = filename n) : m = n := by
  rw [← filename_value m, h, filename_value]

/-- `n2i` undoes `filename`, also behind a space. -/
theorem n2i_filename {n : ℕ} (hn : n < 2^64) : n2i (32 :: filename n) = n := by
  obtain ⟨b,bs,hbs⟩ := List.exists_cons_of_ne_nil (filename_ne_nil n)
  have hdigit : ∀ x ∈ b :: bs, isDigit x = true := fun x hx => filename_digit (hbs ▸ hx)
  have hb := hdigit b (by simp)
  -- a digit is neither a space nor a sign
  have hspace : isSpace b = false := by
    simp only [isDigit, Bool.and_eq_true, decide_eq_true_eq] at hb
    simp only [isSpace, Bool.or_eq_false_iff, Bool.and_eq_false_iff]
    have h1 : 48 ≤ b.toNat := UInt8.le_iff_toNat_le.mp hb.1
    refine ⟨?_, Or.inr ?_⟩
    · simp only [beq_eq_false_iff_ne, ne_eq]
      rintro rfl
      simp at h1
    · simp only [decide_eq_false_iff_not, UInt8.le_iff_toNat_le]
      intro h2
      have : (13 : UInt8).toNat = 13 := rfl
      omega
  have hsign : b ≠ 45 ∧ b ≠ 43 := by
    constructor <;> rintro rfl <;> exact absurd hb (by decide)
  have htake : (b :: bs).takeWhile isDigit = b :: bs :=
    List.takeWhile_eq_self_iff.mpr hdigit
  have hv := filename_value n
  rw [hbs] at hv
  have hdrop : (32 :: b :: bs).dropWhile isSpace = b :: bs := by
    rw [List.dropWhile_cons, if_pos (by decide), List.dropWhile_cons, hspace]
    rfl
  unfold n2i
  rw [hbs, hdrop]
  simp only [List.head?_cons, Option.some_beq_some, Bool.or_self, Bool.false_eq_true, if_false,
    beq_eq_false_iff_ne.mpr hsign.1, beq_eq_false_iff_ne.mpr hsign.2, htake, hv]
  rw [if_neg (by omega)]

end Digits

section RoundTrip
variable {d : Dir} {name : Str} {i : ℕ}

/-- One entry as `to_string` writes it, without the final `:`. -/
def direntStr (e : Str × ℕ) : Str := e.1 ++ [32] ++ filename e.2

theorem extractDirent_direntStr (hn : (32 : UInt8) ∉ name) (hi : i < 2^64) :
    extractDirent (direntStr (name, i)) = some (name, i) := by
  have hne : ∀ a ∈ name, (a != 32) = true := by
    intro a ha
    simp only [bne_iff_ne, ne_eq]
    rintro rfl
    exact hn ha
  have htake : (direntStr (name, i)).takeWhile (· != 32) = name := by
    unfold direntStr
    rw [List.append_assoc, List.takeWhile_append_of_pos hne]
    simp
  have hdrop : (direntStr (name, i)).dropWhile (· != 32) = 32 :: filename i := by
    unfold direntStr
    rw [List.append_assoc, List.dropWhile_append_of_pos hne]
    simp
  have hzero : (32 :: filename i).takeWhile (· != 0) = 32 :: filename i := by
    apply List.takeWhile_eq_self_iff.mpr
    intro a ha
    simp only [bne_iff_ne, ne_eq]
    rintro rfl
    rcases List.mem_cons.mp ha with h | h
    · cases h
    · exact not_mem_filename i (by decide) h
  unfold extractDirent
  rw [if_pos (by simp [direntStr]), htake, hdrop, hzero, n2i_filename hi]

/-- The constructor's loop reads up to the next `:`. -/
theorem parseEntries_piece {piece : Str} (hp : (58 : UInt8) ∉ piece) (acc rest : Str) (d : Dir) :
    parseEntries (piece ++ 58 :: rest) acc d =
      (extractDirent (acc ++ piece)).bind (fun e => parseEntries rest [] (d.insert e.1 e.2)) := by
  induction piece generalizing acc with
  | nil =>
    rw [List.nil_append, parseEntries, if_pos rfl, List.append_nil]
    cases extractDirent acc <;> rfl
  | cons b bs ih =>
    obtain ⟨hb,hbs⟩ := List.ne_and_not_mem_of_not_mem_cons hp
    rw [List.cons_append, parseEntries, if_neg (Ne.symm hb), ih hbs, List.append_assoc]
    rfl

theorem direntStr_colon {e : Str × ℕ} (h : (58 : UInt8) ∉ e.1) : (58 : UInt8) ∉ direntStr e := by
  simp only [direntStr, List.mem_append, List.mem_singleton, not_or]
  exact ⟨⟨h, by decide⟩, not_mem_filename e.2 (by decide)⟩

theorem parseEntries_entries {es : List (Str × ℕ)} (h : ∀ e ∈ es, Plain e.1 ∧ e.2 < 2^64)
    (d : Dir) :
    parseEntries (es.flatMap (fun e => e.1 ++ [32] ++ filename e.2 ++ [58])) [] d =
      some (es.foldl (fun d e => d.insert e.1 e.2) d) := by
  induction es generalizing d with
  | nil => rfl
  | cons e es ih =>
    obtain ⟨⟨hplain,hi⟩,hes⟩ := List.forall_mem_cons.mp h
    have hstr : ((e :: es).flatMap (fun e => e.1 ++ [32] ++ filename e.2 ++ [58])) =
        direntStr e ++ 58 :: es.flatMap (fun e => e.1 ++ [32] ++ filename e.2 ++ [58]) := by
      simp [direntStr]
    rw [hstr, parseEntries_piece (direntStr_colon hplain.2), List.nil_append,
      extractDirent_direntStr hplain.1 hi, Option.bind_some, List.foldl_cons]
    exact ih hes _

/-- The entries of a map, inserted one by one, give the map. -/
theorem foldl_insert_toList (d : Dir) :
    d.toList.foldl (fun d e => d.insert e.1 e.2) (∅ : Dir) = d := by
  rw [← ExtTreeMap.ofList_eq_foldl]
  apply ExtTreeMap.ext_getElem?
  intro k
  rcases hk : d[k]? with _ | v
  · apply ExtTreeMap.getElem?_ofList_of_contains_eq_false
    simp only [List.contains_eq_mem, decide_eq_false_iff_not, List.mem_map, not_exists, not_and]
    rintro ⟨k',v⟩ hm rfl
    rw [ExtTreeMap.mem_toList_iff_getElem?_eq_some.mp hm] at hk
    cases hk
  · exact ExtTreeMap.getElem?_ofList_of_mem (LawfulEqCmp.compare_eq_iff_eq.mpr rfl)
      ExtTreeMap.distinct_keys_toList (ExtTreeMap.mem_toList_iff_getElem?_eq_some.mpr hk)

/-- Two bytes at least for each entry. -/
theorem length_toStr (hd : d.isEmpty = false) : 1 < d.toStr.length := by
  unfold Dir.toStr
  rw [hd, if_neg (by decide)]
  rcases hl : d.toList with _ | ⟨e,es⟩
  · rw [← ExtTreeMap.isEmpty_toList, hl] at hd
    cases hd
  · simp only [List.flatMap_cons, List.length_append, List.length_cons, List.length_nil]
    omega

/-- What `to_string` writes, the constructor reads back. -/
theorem parseDir_toStr (h : d.Wf) : parseDir d.toStr = some d := by
  unfold parseDir
  by_cases hd : d.isEmpty = true
  · have hs : d.toStr = [58] := by
      unfold Dir.toStr
      rw [if_pos hd]
    rw [hs, if_neg (by decide)]
    exact congrArg some (ExtTreeMap.isEmpty_iff.mp hd).symm
  · rw [if_pos (length_toStr (Bool.not_eq_true _ ▸ hd))]
    unfold Dir.toStr
    rw [if_neg hd, parseEntries_entries, foldl_insert_toList]
    rintro ⟨name,i⟩ he
    exact h name i (ExtTreeMap.mem_toList_iff_getElem?_eq_some.mp he)

theorem n2i_lt (s : Str) : n2i s < 2^64 := by
  unfold n2i
  dsimp only
  split_ifs <;> omega

theorem extractDirent_plain {s : Str} {e : Str × ℕ} (hs : (58 : UInt8) ∉ s)
    (h : extractDirent s = some e) : Plain e.1 ∧ e.2 < 2^64 := by
  unfold extractDirent at h
  split_ifs at h
  cases h
  refine ⟨⟨fun h32 => ?_, fun h58 => ?_⟩, n2i_lt _⟩
  · have := List.mem_takeWhile_imp h32
    simp at this
  · exact hs ((List.takeWhile_prefix _).subset h58)

/-- Whatever the constructor accepts is a directory: the separators cannot end up in a name. -/
theorem parseEntries_wf {s piece : Str} {d d' : Dir} (hp : (58 : UInt8) ∉ piece) (hd : d.Wf)
    (h : parseEntries s piece d = some d') : d'.Wf := by
  induction s generalizing piece d with
  | nil =>
    cases h
    exact hd
  | cons c cs ih =>
    simp only [parseEntries] at h
    split_ifs at h with hc
    · split at h
      · rename_i e he
        obtain ⟨hn,hi⟩ := extractDirent_plain hp he
        exact ih (by simp) (hd.insert hn hi) h
      · cases h
    · refine ih ?_ hd h
      simp only [List.mem_append, List.mem_singleton, not_or]
      exact ⟨hp, fun heq => hc heq.symm⟩

theorem parseDir_wf {s : Str} {d : Dir} (h : parseDir s = some d) : d.Wf := by
  unfold parseDir at h
  split_ifs at h
  · exact parseEntries_wf (by simp) Dir.Wf.empty h
  · cases h
    exact Dir.Wf.empty

end RoundTrip

/-- Parsing undoes `to_string`, and `to_string` undoes parsing; an entry that is set or erased in
between is the only one that changes. -/
theorem dir_codec {d : Dir} (h : d.Wf) :
    parseDir d.toStr = some d ∧
    (∀ d', parseDir d.toStr = some d' → d'.toStr = d.toStr) ∧
    (∀ name i, Plain name → i < 2^64 → ∃ d', (parseDir d.toStr).bind (fun p =>
      parseDir (p.add name i).toStr) = some d' ∧ ∀ n, d'[n]? = if name = n then some i else d[n]?) ∧
    ∀ name, Plain name → ∃ d', (parseDir d.toStr).bind (fun p =>
      parseDir (p.rem name).toStr) = some d' ∧ ∀ n, d'[n]? = if name = n then none else d[n]? := by
  have hd := parseDir_toStr h
  refine ⟨hd, ?_, ?_, ?_⟩
  · intro d' hd'
    rw [hd] at hd'
    cases hd'
    rfl
  · intro name i hn hi
    have hadd : (d.add name i).Wf := h.insert hn hi
    refine ⟨d.add name i, ?_, fun n => dir_getElem_insert d name n i⟩
    rw [hd]
    exact parseDir_toStr hadd
  · intro name _
    have hrem : (d.rem name).Wf := h.erase name
    refine ⟨d.rem name, ?_, dir_getElem_erase d name⟩
    rw [hd]
    exact parseDir_toStr hrem

/-- A directory with the entry `a` for the file 5, to which `b` is added. -/
theorem dir_codec_two_names : ∃ d', (parseDir (Dir.toStr ((∅ : Dir).insert [97] 5))).bind (fun p =>
    parseDir (p.add [98] 7).toStr) = some d' ∧ d'[([98] : Str)]? = some 7 ∧
    d'[([97] : Str)]? = some 5 := by
  have hwf : Dir.Wf ((∅ : Dir).insert [97] 5) := Dir.Wf.empty.insert (by decide) (by decide)
  obtain ⟨d',hd',hentry⟩ := (dir_codec hwf).2.2.1 [98] 7 (by decide) (by decide)
  refine ⟨d', hd', ?_, ?_⟩
  · rw [hentry, if_pos rfl]
  · rw [hentry, if_neg (by decide), dir_getElem_insert, if_pos rfl]

section FreshName
variable {d : Dir} {base : Str}

/-- The names that `make_copy` tries: the file's own, then with `.1`, `.2` and so on. -/
def copyName (base : Str) : ℕ → Str
  | 0 => base
  | k+1 => base ++ [46] ++ filename (k+1)

theorem copyName_injective (base : Str) : Function.Injective (copyName base) := by
  have hlen : ∀ k, copyName base (k+1) ≠ base := by
    intro k h
    have := congrArg List.length h
    simp [copyName] at this
  intro i j h
  rcases i with _ | i <;> rcases j with _ | j
  · rfl
  · exact absurd h.symm (hlen j)
  · exact absurd h (hlen i)
  · have hd : filename (i+1) = filename (j+1) := List.append_cancel_left h
    exact filename_injective hd

/-- A search that fails has found every name taken. -/
theorem freshName_none {fuel i : ℕ} (h : freshName d base fuel (i+1) (copyName base i) = none) :
    ∀ j, j < fuel → (d[copyName base (i+j)]?).isSome = true := by
  induction fuel generalizing i with
  | zero => intro j hj; omega
  | succ fuel ih =>
    rw [freshName] at h
    split_ifs at h with hs
    intro j hj
    rcases j with _ | j
    · exact hs
    · have := ih (i := i+1) h j (by omega)
      rwa [show i+1+j = i+(j+1) by omega] at this

theorem freshName_some {fuel i : ℕ} {name : Str}
    (h : freshName d base fuel (i+1) (copyName base i) = some name) :
    d[name]? = none ∧ ∃ k, name = copyName base k := by
  induction fuel generalizing i with
  | zero => cases h
  | succ fuel ih =>
    rw [freshName] at h
    split_ifs at h with hs
    · exact ih (i := i+1) h
    · cases h
      exact ⟨by simpa using hs, i, rfl⟩

/-- Among one more names than the directory has, one is not in it. -/
theorem freshName_found (d : Dir) (base : Str) :
    ∃ name, freshName d base (d.size+1) 1 base = some name := by
  rcases h : freshName d base (d.size+1) 1 base with _ | name
  · have htaken := freshName_none (i := 0) h
    have hsub : (Finset.range (d.size+1)).image (copyName base) ⊆ d.keys.toFinset := by
      intro name hname
      obtain ⟨k,hk,rfl⟩ := Finset.mem_image.mp hname
      have := htaken k (Finset.mem_range.mp hk)
      rw [Nat.zero_add] at this
      rw [List.mem_toFinset, ExtTreeMap.mem_keys, ← ExtTreeMap.isSome_getElem?_iff_mem]
      exact this
    have hcard := Finset.card_le_card hsub
    rw [Finset.card_image_of_injective _ (copyName_injective base), Finset.card_range] at hcard
    have hlen : d.keys.toFinset.card ≤ d.size := by
      rw [← ExtTreeMap.length_keys]
      exact List.toFinset_card_le d.keys
    omega
  · exact ⟨name, rfl⟩

/-- A copy's name has a separator only if the file's own name has one. -/
theorem copyName_plain (h : Plain base) (k : ℕ) : Plain (copyName base k) := by
  rcases k with _ | k
  · exact h
  · simp only [Plain, copyName, List.mem_append, List.mem_singleton, not_or]
    exact ⟨⟨⟨h.1, by decide⟩, not_mem_filename _ (by decide)⟩,
      ⟨h.2, by decide⟩, not_mem_filename _ (by decide)⟩

end FreshName

end DisconnectedYfs.YFS

import Mathlib.Algebra.Group.Int.Defs
import Mathlib.Algebra.GroupWithZero.Nat
import Mathlib.Order.Defs.Unbundled
import LoopTracer.Trace.StringHeap

/-! Laws of the string heap.

A heap is `Indexed` when no string is in its table twice and its index gives every string the handle
of its place. Interning keeps a heap indexed and leaves every string its place (`Grows`); dropping the
strings interned last undoes it (`truncate_grown`). A heap is `Valid` when it also has no more strings
than there are handles, so that handles and strings stand for each other. -/
namespace LoopTracer.Trace.StringHeap

/-- The index finds the strings of the table, and no others, and no string is in the table twice. -/
structure Indexed (h : StringHeap) : Prop where
  index : ∀ (s : Text) (handle : Handle), h.index[s]? = some handle ↔
    ∃ i : Nat, h.strings[i]? = some s ∧ handle = i.toUInt32
  distinct : ∀ {i j : Nat} {s : Text}, h.strings[i]? = some s → h.strings[j]? = some s → i = j
  empty : h.strings[0]? = some ∅

/-- The index finds the strings of the table, and no others. -/
structure Valid (h : StringHeap) : Prop where
  index : ∀ (s : Text) (handle : Handle), h.index[s]? = some handle ↔
    h.strings[handle.toNat]? = some s
  empty : h.strings[0]? = some ∅
  bound : h.size ≤ 2 ^ 32

/-- A heap that has at least the strings of another one, under the same handles. -/
def Extends (h' h : StringHeap) : Prop :=
  ∀ (i : Nat) (s : Text), h.strings[i]? = some s → h'.strings[i]? = some s

theorem Extends.refl (h : StringHeap) : Extends h h := fun _ _ hs => hs

theorem Extends.trans {h h' h'' : StringHeap} (h₂ : Extends h'' h') (h₁ : Extends h' h) :
    Extends h'' h := fun i s hs => h₂ i s (h₁ i s hs)

theorem valid_default : Valid {} where
  index s handle := by
    rw [Std.TreeMap.getElem?_insert]
    simp only [Std.compare_eq_iff_eq]
    by_cases hs : ∅ = s
    · subst hs
      simp only [if_true, Option.some.injEq]
      constructor
      · rintro rfl
        rfl
      · intro h
        have hlt := (Array.getElem?_eq_some_iff.mp h).1
        rw [Array.size_singleton] at hlt
        exact UInt32.toNat_inj.mp (by rw [UInt32.toNat_zero]; omega)
    · simp only [hs, if_false, Std.TreeMap.getElem?_emptyc, reduceCtorEq, false_iff]
      intro h
      obtain ⟨hlt, hget⟩ := Array.getElem?_eq_some_iff.mp h
      rw [Array.size_singleton] at hlt
      simp only [Nat.lt_one_iff.mp hlt] at hget
      exact hs hget
  empty := rfl
  bound := by decide

theorem lookup_of_strings {h : StringHeap} {handle : Handle} {s : Text}
    (hs : h.strings[handle.toNat]? = some s) : h.lookup handle = .ok s := by
  rw [lookup, hs]

theorem lookup_eq_ok_iff {h : StringHeap} {handle : Handle} {s : Text} :
    h.lookup handle = .ok s ↔ h.strings[handle.toNat]? = some s := by
  unfold lookup
  cases h.strings[handle.toNat]? <;> simp

namespace Valid

variable {h : StringHeap}

/-- Handles stand for different strings. -/
theorem handle_inj (hv : Valid h) {a b : Handle} {s : Text} (ha : h.strings[a.toNat]? = some s)
    (hb : h.strings[b.toNat]? = some s) : a = b := by
  have := (hv.index s a).mpr ha
  rw [(hv.index s b).mpr hb] at this
  exact (Option.some.inj this).symm

/-- A string of the table is found under its place. -/
theorem index_of_strings (hv : Valid h) {i : Nat} {s : Text} (hi : h.strings[i]? = some s) :
    ∃ handle : Handle, h.index[s]? = some handle ∧ handle.toNat = i := by
  have hlt : i < UInt32.size := Nat.lt_of_lt_of_le (Array.getElem?_eq_some_iff.mp hi).1 hv.bound
  refine ⟨UInt32.ofNat i, (hv.index s _).mpr ?_, UInt32.toNat_ofNat_of_lt' hlt⟩
  rwa [UInt32.toNat_ofNat_of_lt' hlt]

/-- No string is in the table twice. -/
theorem table_inj (hv : Valid h) {i j : Nat} {s : Text} (hi : h.strings[i]? = some s)
    (hj : h.strings[j]? = some s) : i = j := by
  obtain ⟨a, ha, rfl⟩ := hv.index_of_strings hi
  obtain ⟨b, hb, rfl⟩ := hv.index_of_strings hj
  rw [Option.some.inj (ha.symm.trans hb)]

/-- Only handle zero is the empty string. -/
theorem eq_zero_iff (hv : Valid h) {a : Handle} {s : Text} (ha : h.strings[a.toNat]? = some s) :
    a = 0 ↔ s = ∅ := by
  constructor
  · rintro rfl
    exact Option.some.inj (ha.symm.trans hv.empty)
  · rintro rfl
    exact hv.handle_inj ha hv.empty

theorem indexed (hv : Valid h) : Indexed h where
  index s handle := by
    rw [hv.index]
    constructor
    · exact fun hs => ⟨handle.toNat, hs, UInt32.ofNat_toNat.symm⟩
    · rintro ⟨i, hi, rfl⟩
      have hlt : i < UInt32.size := Nat.lt_of_lt_of_le (Array.getElem?_eq_some_iff.mp hi).1 hv.bound
      rwa [show i.toUInt32.toNat = i from UInt32.toNat_ofNat_of_lt' hlt]
  distinct := hv.table_inj
  empty := hv.empty

end Valid

theorem Indexed.valid {h : StringHeap} (hi : Indexed h) (hbound : h.size ≤ 2 ^ 32) : Valid h where
  index s handle := by
    rw [hi.index]
    constructor
    · rintro ⟨i, hs, rfl⟩
      have hlt : i < UInt32.size := Nat.lt_of_lt_of_le (Array.getElem?_eq_some_iff.mp hs).1 hbound
      rwa [show i.toUInt32.toNat = i from UInt32.toNat_ofNat_of_lt' hlt]
    · exact fun hs => ⟨handle.toNat, hs, UInt32.ofNat_toNat.symm⟩
  empty := hi.empty
  bound := hbound

/-! ### Interning -/

/-- An old string is found, a new one is put behind all others. -/
theorem intern_strings (h : StringHeap) (s : Text) :
    (h.intern s).1.strings = h.strings ∨ (h.intern s).1.strings = h.strings.push s := by
  unfold intern
  cases h.index[s]? with
  | some handle => exact .inl rfl
  | none => exact .inr rfl

theorem intern_extends (h : StringHeap) (s : Text) : Extends (h.intern s).1 h := by
  intro i t hi
  have hlt := (Array.getElem?_eq_some_iff.mp hi).1
  rcases intern_strings h s with heq | heq
  · rwa [heq]
  · rw [heq, Array.getElem?_push, if_neg (by omega)]
    exact hi

theorem Indexed.intern {h : StringHeap} (hi : Indexed h) (s : Text) : Indexed (h.intern s).1 := by
  unfold StringHeap.intern
  cases hs : h.index[s]? with
  | some handle => exact hi
  | none =>
    have hnew : ∀ i : Nat, h.strings[i]? ≠ some s := fun i hget => by
      rw [(hi.index s i.toUInt32).mpr ⟨i, hget, rfl⟩] at hs
      cases hs
    have hget : ∀ (i : Nat) (t : Text), (h.strings.push s)[i]? = some t ↔
        h.strings[i]? = some t ∨ i = h.strings.size ∧ t = s := by
      intro i t
      rw [Array.getElem?_push]
      split
      · next heq =>
        subst heq
        simp [eq_comm]
      · next hne => simp [hne]
    refine ⟨fun t handle => ?_, fun {i j t} hti htj => ?_, (hget 0 ∅).mpr (.inl hi.empty)⟩
    · rw [Std.TreeMap.getElem?_insert]
      simp only [hget, Std.compare_eq_iff_eq]
      by_cases hts : s = t
      · subst hts
        simp only [if_true, Option.some.injEq]
        constructor
        · rintro rfl
          exact ⟨_, .inr ⟨rfl, trivial⟩, rfl⟩
        · rintro ⟨i, hold | ⟨rfl, -⟩, rfl⟩
          · exact absurd hold (hnew i)
          · rfl
      · simp only [hts, if_false, hi.index, Ne.symm hts, and_false, or_false]
    · change (h.strings.push s)[i]? = some t at hti
      change (h.strings.push s)[j]? = some t at htj
      rw [hget] at hti htj
      obtain hti | ⟨rfl, rfl⟩ := hti
      · obtain htj | ⟨-, rfl⟩ := htj
        · exact hi.distinct hti htj
        · exact absurd hti (hnew i)
      · obtain htj | ⟨rfl, -⟩ := htj
        · exact absurd htj (hnew j)
        · rfl

/-- The handle of a string is its place in the table. -/
theorem Indexed.intern_place {h : StringHeap} (hi : Indexed h) (s : Text) :
    ∃ i : Nat, (h.intern s).1.strings[i]? = some s ∧ (h.intern s).2 = i.toUInt32 := by
  unfold StringHeap.intern
  cases hs : h.index[s]? with
  | some handle => exact (hi.index s handle).mp hs
  | none => exact ⟨h.strings.size, by simp, rfl⟩

/-- The handle of a string is one of the heap, though after too many strings it may be that of
another. -/
theorem Indexed.intern_lt {h : StringHeap} (hi : Indexed h) (s : Text) :
    (h.intern s).2.toNat < (h.intern s).1.size := by
  obtain ⟨i, hget, heq⟩ := hi.intern_place s
  have hlt : i < (h.intern s).1.size := (Array.getElem?_eq_some_iff.mp hget).1
  rw [heq]
  exact Nat.lt_of_le_of_lt (Nat.mod_le i _) hlt

/-- Strings are added to a heap. -/
def Grows (h h' : StringHeap) : Prop := Indexed h → Indexed h' ∧ Extends h' h

instance : IsPreorder StringHeap Grows where
  refl h hi := ⟨hi, .refl h⟩
  trans _ _ _ h₁ h₂ hi := ⟨(h₂ (h₁ hi).1).1, (h₂ (h₁ hi).1).2.trans (h₁ hi).2⟩

theorem grows_intern (h : StringHeap) (s : Text) : Grows h (h.intern s).1 :=
  fun hi => ⟨hi.intern s, intern_extends h s⟩

/-- A heap has the strings that another one has. -/
def Same (h h' : StringHeap) : Prop := Indexed h → Indexed h' ∧ h'.strings = h.strings

instance : IsPreorder StringHeap Same where
  refl _ hi := ⟨hi, rfl⟩
  trans _ _ _ h₁ h₂ hi := ⟨(h₂ (h₁ hi).1).1, (h₂ (h₁ hi).1).2.trans (h₁ hi).2⟩

/-- Interning keeps a heap valid as long as there are handles left. -/
theorem intern_spec {h : StringHeap} (hv : Valid h) (hroom : h.size < 2 ^ 32) (s : Text) :
    Valid (h.intern s).1 ∧ (h.intern s).1.strings[(h.intern s).2.toNat]? = some s ∧
      ((h.intern s).1.strings = h.strings ∨ (h.intern s).1.strings = h.strings.push s) := by
  have hstrings := intern_strings h s
  have hbound : (h.intern s).1.size ≤ 2 ^ 32 := by
    unfold size at hroom ⊢
    rcases hstrings with heq | heq
    · rw [heq]
      omega
    · rw [heq, Array.size_push]
      omega
  obtain ⟨i, hi, hhandle⟩ := hv.indexed.intern_place s
  have hlt : i < UInt32.size := Nat.lt_of_lt_of_le (Array.getElem?_eq_some_iff.mp hi).1 hbound
  refine ⟨(hv.indexed.intern s).valid hbound, ?_, hstrings⟩
  rwa [hhandle, show i.toUInt32.toNat = i from UInt32.toNat_ofNat_of_lt' hlt]

/-! ### Dropping -/

theorem getElem?_foldl_erase (l : List Text) (m : Std.TreeMap Text Handle) (s : Text) :
    (l.foldl (fun m s => m.erase s) m)[s]? = if s ∈ l then none else m[s]? := by
  induction l generalizing m with
  | nil => simp
  | cons t l ih =>
    rw [List.foldl_cons, ih, Std.TreeMap.getElem?_erase]
    by_cases hl : s ∈ l
    · simp [hl]
    · by_cases ht : t = s
      · simp [ht]
      · simp [hl, ht, Ne.symm ht]

/-- Dropping strings keeps the others. -/
theorem Indexed.truncate {h : StringHeap} (hi : Indexed h) (n : Nat) (hn : 0 < n) :
    Indexed (h.truncate n) ∧ (h.truncate n).strings = h.strings.take n := by
  unfold StringHeap.truncate
  by_cases hsize : h.strings.size ≤ n
  · have hskip : ((n : Int) < 1 || (h.strings.size : Int) ≤ n) = true := by simp [hsize]
    rw [if_pos hskip]
    refine ⟨hi, ?_⟩
    rw [Array.take_eq_extract, Array.extract_eq_self_of_le hsize]
  · have hskip : ¬((n : Int) < 1 || (h.strings.size : Int) ≤ n) = true := by
      simp only [Bool.or_eq_true, decide_eq_true_eq]
      omega
    rw [if_neg hskip, Int.toNat_natCast]
    have htake : ∀ (i : Nat) (s : Text),
        (h.strings.take n)[i]? = some s ↔ i < n ∧ h.strings[i]? = some s := by
      intro i s
      rw [Array.take_eq_extract, Array.getElem?_extract]
      by_cases hi : i < n
      · have hlt : i < min n h.strings.size - 0 := by omega
        simp only [hlt, hi, if_true, Nat.zero_add, true_and]
      · have hlt : ¬i < min n h.strings.size - 0 := by omega
        simp only [hlt, hi, if_false, reduceCtorEq, false_and]
    have hdropped : ∀ s, s ∈ h.strings.toList.drop n ↔ ∃ i, n ≤ i ∧ h.strings[i]? = some s := by
      intro s
      rw [List.mem_iff_getElem?]
      constructor
      · rintro ⟨i, hi⟩
        rw [List.getElem?_drop, Array.getElem?_toList] at hi
        exact ⟨n + i, by omega, hi⟩
      · rintro ⟨i, hle, hi⟩
        refine ⟨i - n, ?_⟩
        rw [List.getElem?_drop, Array.getElem?_toList, Nat.add_sub_cancel' hle]
        exact hi
    refine ⟨⟨fun s handle => ?_, fun hs hs' => ?_, (htake _ _).mpr ⟨hn, hi.empty⟩⟩, rfl⟩
    · rw [getElem?_foldl_erase]
      simp only [htake]
      by_cases hs : s ∈ h.strings.toList.drop n
      · obtain ⟨j, hj, hsj⟩ := (hdropped s).mp hs
        rw [if_pos hs]
        constructor
        · intro hnone
          cases hnone
        · rintro ⟨i, ⟨hlt, hsi⟩, -⟩
          have := hi.distinct hsi hsj
          omega
      · rw [if_neg hs, hi.index]
        refine ⟨fun ⟨i, hsi, hhandle⟩ => ⟨i, ⟨Nat.lt_of_not_le fun hle => hs ?_, hsi⟩, hhandle⟩,
          fun ⟨i, ⟨_, hsi⟩, hhandle⟩ => ⟨i, hsi, hhandle⟩⟩
        exact (hdropped s).mpr ⟨_, hle, hsi⟩
    · exact hi.distinct ((htake _ _).mp hs).2 ((htake _ _).mp hs').2

theorem truncate_spec {h : StringHeap} (hv : Valid h) (n : Nat) (hn : 0 < n) :
    Valid (h.truncate n) ∧ (h.truncate n).strings = h.strings.take n := by
  obtain ⟨hindexed, hstrings⟩ := hv.indexed.truncate n hn
  refine ⟨hindexed.valid ?_, hstrings⟩
  have hbound := hv.bound
  unfold size at hbound ⊢
  rw [hstrings, Array.take_eq_extract, Array.size_extract]
  omega

/-- Dropping what was added leaves the strings that there were. -/
theorem truncate_grown {h h' : StringHeap} (hg : Grows h h') : Same h (h'.truncate h.size) := by
  intro hi
  have hpos : 0 < h.size := (Array.getElem?_eq_some_iff.mp hi.empty).1
  obtain ⟨hindexed, hstrings⟩ := (hg hi).1.truncate h.size hpos
  refine ⟨hindexed, hstrings.trans (Array.ext_getElem? fun i => ?_)⟩
  rw [Array.take_eq_extract, Array.getElem?_extract, Nat.zero_add]
  by_cases hlt : i < h.size
  · have hget : h.strings[i]? = some h.strings[i] := Array.getElem?_eq_getElem hlt
    have hget' := (hg hi).2 i _ hget
    have hlt' := (Array.getElem?_eq_some_iff.mp hget').1
    rw [if_pos (by omega), hget', hget]
  · rw [if_neg (by omega), Array.getElem?_eq_none (Nat.le_of_not_lt hlt)]

end LoopTracer.Trace.StringHeap

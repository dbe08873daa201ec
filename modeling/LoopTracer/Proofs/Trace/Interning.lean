import Mathlib.Data.List.Induction
import LoopTracer.Proofs.Trace.StringHeap

/-! Interning through a whole history.

A heap is changed in three ways: a string is interned, the strings interned last are dropped, or all
of them are (`Change`). A heap is indexed whatever was done to it since it was new
(`after_indexed`), so its handles and its strings stand for each other as long as there are handles.
What happens behind a mark does not concern the strings in front of it (`Change.Spares`,
`applyAll_spares`). -/
namespace LoopTracer.Trace.StringHeap

/-- What can be done to a heap. -/
inductive Change where
  | intern (s : Text)
  | truncate (n : Int)
  | reset

def apply (h : StringHeap) : Change → StringHeap
  | .intern s => (h.intern s).1
  | .truncate n => h.truncate n
  | .reset => {}

/-- Changes made one after the other. -/
def applyAll (h : StringHeap) (l : List Change) : StringHeap := l.foldl apply h

/-- What changes make of a new heap. -/
def after (l : List Change) : StringHeap := applyAll {} l

/-- A change that leaves the strings in front of a mark alone. A length below one drops nothing. -/
def Change.Spares (mark : Int) : Change → Prop
  | .intern _ => True
  | .truncate n => n < 1 ∨ mark ≤ n
  | .reset => False

variable {h : StringHeap} {c : Change} {mark : Int}

/-- A length that is out of range drops nothing, any other one is a number of strings. -/
theorem truncate_cases (h : StringHeap) (n : Int) :
    (n < 1 ∧ h.truncate n = h) ∨ ∃ k : Nat, 0 < k ∧ n = k := by
  by_cases hn : n < 1
  · refine .inl ⟨hn, ?_⟩
    unfold truncate
    rw [if_pos (by simp [hn])]
  · exact .inr ⟨n.toNat, by omega, by omega⟩

theorem Indexed.apply (hi : Indexed h) (c : Change) : Indexed (h.apply c) := by
  cases c with
  | intern s => exact hi.intern s
  | truncate n =>
    show Indexed (h.truncate n)
    obtain ⟨-, heq⟩ | ⟨k, hk, rfl⟩ := h.truncate_cases n
    · rwa [heq]
    · exact (hi.truncate k hk).1
  | reset => exact valid_default.indexed

theorem Indexed.applyAll (hi : Indexed h) (l : List Change) : Indexed (h.applyAll l) := by
  induction l generalizing h with
  | nil => exact hi
  | cons c l ih => exact ih (hi.apply c)

theorem after_indexed (l : List Change) : Indexed (after l) := valid_default.indexed.applyAll l

/-- A change behind a mark keeps what is in front of it. -/
theorem Indexed.apply_spares (hi : Indexed h) (hc : c.Spares mark) {i : Nat} {s : Text}
    (hlt : (i : Int) < mark)
    (hs : h.strings[i]? = some s) : (h.apply c).strings[i]? = some s := by
  cases c with
  | intern t => exact intern_extends h t i s hs
  | truncate n =>
    show (h.truncate n).strings[i]? = some s
    obtain ⟨-, heq⟩ | ⟨k, hk, rfl⟩ := h.truncate_cases n
    · rwa [heq]
    · have hik : i < k := by
        have : (k : Int) < 1 ∨ mark ≤ k := hc
        omega
      have hsize := (Array.getElem?_eq_some_iff.mp hs).1
      rw [(hi.truncate k hk).2, Array.take_eq_extract, Array.getElem?_extract,
        if_pos (by omega), Nat.zero_add]
      exact hs
  | reset => exact absurd hc id

theorem Indexed.applyAll_spares {l : List Change} (hi : Indexed h) (hl : ∀ c ∈ l, c.Spares mark)
    {i : Nat} {s : Text}
    (hlt : (i : Int) < mark) (hs : h.strings[i]? = some s) :
    (h.applyAll l).strings[i]? = some s := by
  induction l generalizing h with
  | nil => exact hs
  | cons c l ih =>
    exact ih (hi.apply c) (fun c' hc' => hl c' (List.mem_cons_of_mem c hc'))
      (hi.apply_spares (hl c List.mem_cons_self) hlt hs)

/-- The strings stay while others are interned. -/
theorem applyAll_intern_extends (h : StringHeap) (l : List Text) :
    Extends (h.applyAll (l.map .intern)) h := by
  induction l generalizing h with
  | nil => exact .refl h
  | cons s l ih => exact (ih _).trans (intern_extends h s)

theorem size_intern_le (h : StringHeap) (s : Text) : (h.intern s).1.size ≤ h.size + 1 := by
  unfold intern size
  split
  · exact Nat.le_succ _
  · exact Nat.le_of_eq (Array.size_push s)

/-- Each change makes at most one more string, so a heap does not run out of handles for a
long time. -/
theorem Indexed.size_applyAll_le (hi : Indexed h) (l : List Change) :
    (h.applyAll l).size ≤ h.size + l.length := by
  induction l generalizing h with
  | nil => exact Nat.le_refl _
  | cons c l ih =>
    have hc : (h.apply c).size ≤ h.size + 1 := by
      cases c with
      | intern s => exact size_intern_le h s
      | truncate n =>
        show (h.truncate n).size ≤ h.size + 1
        obtain ⟨-, heq⟩ | ⟨k, hk, rfl⟩ := h.truncate_cases n
        · rw [heq]
          exact Nat.le_succ _
        · rw [size, (hi.truncate k hk).2, Array.take_eq_extract, Array.size_extract, size]
          omega
      | reset => exact Nat.succ_le_succ (Nat.zero_le h.size)
    have hl : (h.applyAll (c :: l)).size ≤ (h.apply c).size + l.length := ih (hi.apply c)
    rw [List.length_cons]
    omega

/-- As long as there are handles, that of a place names it. -/
theorem toNat_place {i : Nat} {s : Text} (hsize : h.size ≤ 2 ^ 32)
    (hs : h.strings[i]? = some s) : i.toUInt32.toNat = i :=
  UInt32.toNat_ofNat_of_lt' (Nat.lt_of_lt_of_le (Array.getElem?_eq_some_iff.mp hs).1 hsize)

/-- The handle that interning gives is that of the string. -/
theorem Indexed.lookup_intern (hi : Indexed h) (s : Text) (hsize : (h.intern s).1.size ≤ 2 ^ 32) :
    (h.intern s).1.lookup (h.intern s).2 = .ok s := by
  obtain ⟨i, hs, hhandle⟩ := hi.intern_place s
  rw [lookup_eq_ok_iff, hhandle, toNat_place hsize hs]
  exact hs

/-- Two strings that are interned one after the other have one handle exactly if they are equal. -/
theorem Indexed.intern_inj (hi : Indexed h) (s t : Text) (l : List Text)
    (hsize : (((h.intern s).1.applyAll (l.map .intern)).intern t).1.size ≤ 2 ^ 32) :
    (h.intern s).2 = (((h.intern s).1.applyAll (l.map .intern)).intern t).2 ↔ s = t := by
  obtain ⟨i, hs, hhandle⟩ := hi.intern_place s
  have hi' : Indexed ((h.intern s).1.applyAll (l.map .intern)) := (hi.intern s).applyAll _
  obtain ⟨j, ht, hhandle'⟩ := hi'.intern_place t
  have hs' := intern_extends _ t i s (applyAll_intern_extends (h.intern s).1 l i s hs)
  rw [hhandle, hhandle']
  constructor
  · intro heq
    have hij : i = j := by
      rw [← toNat_place hsize hs', ← toNat_place hsize ht, heq]
    subst hij
    exact Option.some.inj (hs'.symm.trans ht)
  · rintro rfl
    rw [(hi'.intern s).distinct hs' ht]

theorem lookup_error_iff (h : StringHeap) (handle : Handle) :
    (∃ f, h.lookup handle = .error f) ↔ h.size ≤ handle.toNat := by
  unfold lookup size
  rw [← Array.getElem?_eq_none_iff]
  cases h.strings[handle.toNat]? <;> simp

/-- Whatever was interned, dropped and reset before, the empty string has handle zero, no string is
in the heap twice, and the index gives every string of the heap, and no other, the handle of its
place. A string is looked up under the handle that interning it has given, and so two strings that
are interned with nothing dropped in between have one handle exactly if they are equal, both as long
as there are no more strings than handles. The handles in front of a mark keep their strings while
nothing in front of it is dropped, and a handle leads to no string exactly if it is not below the
number of strings. -/
theorem interned_faithfully (l : List Change) :
    ((after l).lookup 0 = .ok ∅ ∧ 1 ≤ (after l).size) ∧
    (∀ (i j : Nat) (s : Text), (after l).strings[i]? = some s →
      (after l).strings[j]? = some s → i = j) ∧
    (∀ s handle, (after l).index[s]? = some handle ↔
      ∃ i : Nat, (after l).strings[i]? = some s ∧ handle = i.toUInt32) ∧
    (∀ s, ((after l).intern s).1.size ≤ 2 ^ 32 →
      ((after l).intern s).1.lookup ((after l).intern s).2 = .ok s) ∧
    (∀ (s t : Text) (between : List Text),
      let h := ((after l).intern s).1.applyAll (between.map .intern)
      (h.intern t).1.size ≤ 2 ^ 32 → (((after l).intern s).2 = (h.intern t).2 ↔ s = t)) ∧
    (∀ (handle : Handle) (s : Text) (mark : Int) (later : List Change), (after l).lookup handle =
      .ok s → (handle.toNat : Int) < mark →
      (∀ c ∈ later, c.Spares mark) →
      (((after l).truncate mark).applyAll later).lookup handle = .ok s) ∧
    ∀ handle, (∃ f, (after l).lookup handle = .error f) ↔ (after l).size ≤ handle.toNat := by
  have hi := after_indexed l
  refine ⟨⟨lookup_eq_ok_iff.mpr hi.empty, (Array.getElem?_eq_some_iff.mp hi.empty).1⟩,
    fun _ _ _ => hi.distinct, hi.index,
    hi.lookup_intern, hi.intern_inj, fun handle s mark later hlookup hlt hlater =>
      ?_, (after l).lookup_error_iff⟩
  -- the truncation itself is the first change behind the mark
  have hspares : ∀ c ∈ Change.truncate mark :: later, c.Spares mark := by
    intro c hc
    obtain rfl | hc := List.mem_cons.mp hc
    · exact .inr (Int.le_refl mark)
    · exact hlater c hc
  exact lookup_eq_ok_iff.mpr (hi.applyAll_spares hspares hlt (lookup_eq_ok_iff.mp hlookup))

/-- A string that was dropped is interned again. -/
theorem dropped_interned_again :
    let h := after [.intern (.ofString "a"), .truncate 1]
    (h.intern (.ofString "a")).1.lookup (h.intern (.ofString "a")).2 = .ok (.ofString "a") := by
  refine (interned_faithfully _).2.2.2.1 _ (Nat.le_trans (size_intern_le _ _) ?_)
  have hsize := valid_default.indexed.size_applyAll_le [.intern (.ofString "a"), .truncate 1]
  exact Nat.le_trans (Nat.succ_le_succ hsize) (by decide)

end LoopTracer.Trace.StringHeap

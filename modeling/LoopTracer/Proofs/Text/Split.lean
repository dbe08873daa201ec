import LoopTracer.Text.Basic

/-! Text that is cut at a byte.

Pieces without the byte that are joined by it are what the text is cut into (`split_join`). -/
namespace LoopTracer.Text

variable {sep : UInt8} {parts : List Text}

theorem foldl_bytes {β : Type} (f : β → UInt8 → β) (b : β) (bytes : ByteArray) :
    bytes.foldl f b = bytes.data.toList.foldl f b := by
  have hloop : ∀ (i j : Nat) (b : β), i + j = bytes.size →
      Id.run (ByteArray.foldlM.loop (m := Id) (pure <| f · ·) bytes bytes.size
        (Nat.le_refl _) i j b) =
        (bytes.data.toList.drop j).foldl f b := by
    intro i
    induction i with
    | zero =>
      intro j b hj
      rw [List.drop_eq_nil_of_le
        (Nat.le_of_eq ((Array.length_toList).trans (hj.symm.trans (Nat.zero_add j))))]
      unfold ByteArray.foldlM.loop
      rw [dif_neg (by omega)]
      rfl
    | succ i ih =>
      intro j b hj
      have hlt : j < bytes.size := by omega
      have hlt' : j < bytes.data.toList.length := hlt
      unfold ByteArray.foldlM.loop
      rw [dif_pos hlt, ← List.getElem_cons_drop hlt', List.foldl_cons]
      exact ih (j + 1) _ (by omega)
  unfold ByteArray.foldl ByteArray.foldlM
  rw [dif_pos (Nat.le_refl _)]
  exact hloop bytes.size 0 b rfl

/-- The bytes of a piece that is being read and the pieces before it, after some more bytes. -/
def cut (sep : UInt8) (l : List UInt8) (state : ByteArray × List Text) : ByteArray × List Text :=
  l.foldl (fun (piece, done) b => if b == sep then (ByteArray.empty, (⟨piece⟩ : Text) :: done)
    else (piece.push b, done)) state

theorem split_eq (t : Text) (sep : UInt8) : t.split sep =
    ((⟨(cut sep t.toList (.empty, [])).1⟩ : Text) :: (cut sep
      t.toList (.empty, [])).2).reverse := by
  unfold split
  rw [foldl_bytes]
  rfl

/-- No piece has the separator in it. -/
theorem not_mem_cut {l : List UInt8} {state : ByteArray × List Text} (hpiece : sep ∉ state.1.data)
    (hdone : ∀ t ∈ state.2, sep ∉ t.bytes.data) :
    sep ∉ (cut sep l state).1.data ∧ ∀ t ∈ (cut sep l state).2, sep ∉ t.bytes.data := by
  induction l generalizing state with
  | nil => exact ⟨hpiece, hdone⟩
  | cons b l ih =>
    rw [cut, List.foldl_cons]
    refine ih ?_ ?_
    all_goals
      dsimp only
      split
    · exact Array.not_mem_empty sep
    · next hb =>
      rw [ByteArray.data_push, Array.mem_push]
      rintro (hmem | rfl)
      · exact hpiece hmem
      · simp at hb
    · intro t ht
      rcases List.mem_cons.mp ht with rfl | ht
      · exact hpiece
      · exact hdone t ht
    · exact hdone

theorem not_mem_split {t u : Text} (hu : u ∈ t.split sep) : sep ∉ u.toList := by
  have hempty : sep ∉ (((.empty, []) : ByteArray × List Text)).1.data := Array.not_mem_empty sep
  obtain ⟨hpiece, hdone⟩ := not_mem_cut (l := t.toList) hempty nofun
  rw [split_eq, List.mem_reverse] at hu
  intro hmem
  rcases List.mem_cons.mp hu with rfl | hu
  · exact hpiece (Array.mem_toList_iff.mp hmem)
  · exact hdone u hu (Array.mem_toList_iff.mp hmem)

/-- Bytes other than the separator are put behind the piece. -/
theorem cut_bytes {l : List UInt8} (hl : sep ∉ l) (piece : ByteArray) (done : List Text) :
    cut sep l (piece, done) = (piece ++ l.toByteArray, done) := by
  induction l generalizing piece with
  | nil =>
    have hempty : ([] : List UInt8).toByteArray = ByteArray.empty := rfl
    rw [hempty, ByteArray.append_empty]
    rfl
  | cons b l ih =>
    rw [List.mem_cons, not_or] at hl
    have hb : (b == sep) = false := beq_eq_false_iff_ne.mpr (Ne.symm hl.1)
    show cut sep l (if b == sep then _ else _) = _
    rw [hb, if_neg Bool.false_ne_true, ih hl.2]
    refine Prod.ext (ByteArray.ext ?_) rfl
    simp [ByteArray.data_append, ByteArray.data_push]

theorem cut_piece {t : Text} (ht : sep ∉ t.toList) (done : List Text) :
    cut sep t.toList (.empty, done) = (t.bytes, done) := by
  have hbytes : t.toList.toByteArray = t.bytes :=
    ByteArray.ext (by rw [List.data_toByteArray, toList, Array.toArray_toList])
  rw [cut_bytes ht, hbytes, ByteArray.empty_append]

theorem toList_join (c : Text) (t : Text) (rest : List Text) :
    (join c (t :: rest)).toList = t.toList ++ rest.flatMap fun u => c.toList ++ u.toList := by
  show (rest.foldl (fun acc u => acc ++ c ++ u) t).toList = _
  induction rest generalizing t with
  | nil => rw [List.foldl_nil, List.flatMap_nil, List.append_nil]
  | cons u rest ih =>
    rw [List.foldl_cons, ih, toList_append, toList_append, List.flatMap_cons]
    simp

theorem cut_pieces (rest : List Text) (h : ∀ u ∈ rest, sep ∉ u.toList) (t : Text)
    (done : List Text) :
    ((⟨(cut sep (rest.flatMap fun u => sep :: u.toList) (t.bytes, done)).1⟩ : Text) ::
      (cut sep (rest.flatMap fun u => sep :: u.toList) (t.bytes, done)).2).reverse =
        done.reverse ++ t :: rest := by
  induction rest generalizing t done with
  | nil =>
    rw [List.flatMap_nil, cut, List.foldl_nil, List.reverse_cons]
  | cons u rest ih =>
    have hstep : cut sep ((u :: rest).flatMap fun u => sep :: u.toList) (t.bytes, done) =
        cut sep (rest.flatMap fun u => sep :: u.toList) (u.bytes, t :: done) := by
      have hcut := cut_piece (h u List.mem_cons_self) (t :: done)
      rw [List.flatMap_cons, List.cons_append, cut, List.foldl_cons, List.foldl_append]
      dsimp only
      rw [beq_self_eq_true, if_pos rfl]
      show cut sep _ (cut sep u.toList (.empty, t :: done)) = _
      rw [hcut]
    rw [hstep, ih (fun u' hu' => h u' (List.mem_cons_of_mem _ hu')), List.reverse_cons,
      List.append_assoc]
    rfl

/-- Pieces without a byte that are joined by it come apart again. -/
theorem split_join {c : Text} (hc : c.toList = [sep]) (hne : parts ≠ [])
    (h : ∀ t ∈ parts, sep ∉ t.toList) :
    (join c parts).split sep = parts := by
  obtain ⟨t, rest, rfl⟩ := List.exists_cons_of_ne_nil hne
  have hcut : cut sep (join c (t :: rest)).toList (.empty, []) =
      cut sep (rest.flatMap fun u => sep :: u.toList) (t.bytes, []) := by
    rw [toList_join, hc, cut, List.foldl_append]
    show cut sep _ (cut sep t.toList (.empty, [])) = _
    rw [cut_piece (h t List.mem_cons_self)]
    rfl
  rw [split_eq, hcut, cut_pieces rest fun u hu => h u (List.mem_cons_of_mem _ hu)]
  rfl

end LoopTracer.Text

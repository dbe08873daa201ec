import LoopTracer.Compile.Assembly
import LoopTracer.Proofs.Compile.Layout
import LoopTracer.Proofs.Machine.Lengths
import LoopTracer.Proofs.Machine.RegisterSets

/-! Room for requests.

Compiling is given up when a limit is exceeded, and each limit has its message: the pages of the
region are a limit to the code (`Code.Exceeded`), the reservations and the spill slots to the
allocator (`Allocation.Exceeded`), and the guards and the jumps out of the trace to all of it
(`Exceeded`). Writing code runs into one of them only, that there is no free page: a page that code
is written to has room for the request (`emit_room`). -/
namespace LoopTracer.Compile

open Machine

/-- There is no free page among so many, and this says so. -/
inductive Code.Exceeded (pages : Nat) (c : Code) : CompileError → Prop where
  | space (kind : PageKind) (h : c.region.Frees []) : Code.Exceeded pages c
      ⟨.outOfSpace, "no free " ++ kind.name ++ " page (" ++ .ofNat (pages - 1) ++ " pages in use)"⟩

/-- There is no free page, all spill slots are in use, or all reservations are, and this says
which. -/
inductive Allocation.Exceeded (limits : Limits) (pages : Nat)
    (s : Allocation) : CompileError → Prop where
  | code {e : CompileError} (h : s.code.Exceeded pages e) : Allocation.Exceeded limits pages s e
  | slots (h : limits.maxSpillSlots ≤ s.regs.slots.size)
      (hused : ∀ used ∈ s.regs.slots, used = true) :
    Allocation.Exceeded limits pages s ⟨.frameOverflow,
      "more than " ++ .ofInt limits.maxSpillSlots ++ " spill slots"⟩
  | live (ref : Trace.Ref) (h : limits.maxReservations ≤ s.regs.live) (hfull : s.regs.free = none) :
    Allocation.Exceeded limits pages s ⟨.tooManyLive,
      .ofNat s.regs.live ++ " values live at v" ++ .ofInt ref⟩

/-- A limit is exceeded where compiling a fragment has come to in a region of so many pages, and
this says which. -/
inductive Exceeded (limits : Limits) (pages : Nat) (fragment : Text)
    (s : Assembler) : CompileError → Prop where
  | alloc {e : CompileError} (h : s.alloc.Exceeded limits pages e) :
      Exceeded limits pages fragment s e
  | guards (h : limits.maxGuards ≤ s.guards.size) : Exceeded limits pages fragment s
      ⟨.tooManyGuards, "more than " ++ .ofInt limits.maxGuards ++ " guards in " ++ fragment⟩
  | exits (h : limits.maxExitJumps < s.exitJumps) : Exceeded limits pages fragment s
      ⟨.tooManyExits, "more than " ++ .ofInt limits.maxExitJumps ++
        " off-trace jumps in " ++ fragment⟩

/-- What would be said if there were no value to evict from a register. -/
def noRegister (pos : Nat) : CompileError :=
  ⟨.tooManyLive, "no register to evict at v" ++ .ofNat pos⟩

/-- Both that and a full table of reservations are too many live values, but the words differ. -/
theorem Allocation.Exceeded.ne_noRegister {limits : Limits} {pages pos : Nat} {s : Allocation}
    {e : CompileError}
    (h : s.Exceeded limits pages e) : e ≠ noRegister pos := by
  have happend : ∀ s t : String, Text.ofString s ++ Text.ofString t = Text.ofString (s ++ t) :=
    fun s t =>
    congrArg Text.mk String.toByteArray_append.symm
  have hint : ∀ n : Int, ∃ s : String, Text.ofInt n = Text.ofString s := by
    intro n
    unfold Text.ofInt Text.ofNat
    split
    · exact ⟨_, happend _ _⟩
    · exact ⟨_, rfl⟩
  intro heq
  cases h with
  | live ref _ _ =>
    have hdetail := congrArg CompileError.detail heq
    obtain ⟨digits, hdigits⟩ := hint ref
    simp only [noRegister, hdigits, Text.ofNat, happend] at hdetail
    have hchars := congrArg String.toList (String.toByteArray_inj.mp (congrArg Text.bytes hdetail))
    simp only [String.toList_append, Nat.toList_repr] at hchars
    -- one text begins with a digit, the other with a letter
    cases hlive : Nat.toDigits 10 s.regs.live with
    | nil => exact Nat.toDigits_ne_nil hlive
    | cons x xs =>
      rw [hlive] at hchars
      have hdigit : x.isDigit = true :=
        Nat.isDigit_of_mem_toDigits (by decide) (Nat.le_refl 10) (hlive ▸ List.mem_cons_self)
      obtain rfl : x = 'n' := (List.cons.inj hchars).1
      cases hdigit
  | code h =>
    cases h with
    | space kind _ => cases congrArg CompileError.kind heq
  | slots => cases congrArg CompileError.kind heq

theorem Exceeded.ne_noRegister {limits : Limits} {pages pos : Nat} {fragment : Text} {s : Assembler}
    {e : CompileError}
    (h : Exceeded limits pages fragment s e) : e ≠ noRegister pos := by
  cases h with
  | alloc h => exact h.ne_noRegister
  | guards | exits => exact fun heq => by cases congrArg CompileError.kind heq

namespace Code

/-- Writing code is stopped by a limit, not by a fault. -/
def Stops (pages : Nat) (e : CompileStop) (c : Code) : Prop :=
  ∃ x, e = .error x ∧ c.Exceeded pages x

variable {b : Backend} {r : CodePages} {l : List Nat} {side : Side} {c : Code}
  {w : Writer} {i : Instr}

/-- A writer of a chain has a page of the memory. -/
theorem Tidy.within (ht : Tidy r l c) (hr : r.Laid) (hw : (c.chain side).writer = some w) :
    0 ≤ w.low ∧ w.low ≤ w.cursor ∧ w.cursor ≤ c.region.mem.size ∧ w.free = w.cursor - w.low := by
  obtain ⟨h, hh, hlow, hcursor, hpage, -⟩ := ht.writer side w hw
  have hend := hr.page_le (ht.drawn.page_lt hh)
  have hsize := ht.size
  have hsmall := hr.small
  exact ⟨by omega, hcursor, by omega, signed64_eq (by omega) (by omega)⟩

/-- A request that can be encoded and that there is room for is written. -/
theorem write_fits (hr : r.Laid) (ht : Tidy r l c) (hw : (c.chain side).writer = some w)
    {bytes : List UInt8}
    (hencode : b.encode w.pos i = .ok bytes) (hroom : b.maxLength ≤ w.free) :
    ∃ c' w', write b side w i c = .ok () c' ∧
      Tidy r l c' ∧ (c'.chain side).writer = some w' ∧ w.free - b.maxLength ≤ w'.free := by
  obtain ⟨hlow, hcursor, hsize, hfree⟩ := ht.within hr hw
  have hsmall := hr.small
  have hmem := ht.size
  have hlength := length_encode hencode
  let w' : Writer := { w with cursor := w.cursor - bytes.length }
  have hemit : ∃ mem, w.emit b c.region.mem i = (w', mem, none) := by
    unfold Writer.emit
    rw [hencode]
    cases bytes with
    | nil => exact ⟨c.region.mem, by simp [w']⟩
    | cons x bytes =>
      dsimp only
      unfold Writer.prepend
      rw [if_neg (by omega)]
      dsimp only
      rw [if_neg (by simp only [Bool.or_eq_true, decide_eq_true_eq]; omega)]
      exact ⟨_, rfl⟩
  obtain ⟨mem, hemit⟩ := hemit
  have ht' := (ht.written hr.toSized hw hemit).1
  have hw' : ((c.written side w' mem).chain side).writer = some w' := by
    rw [chain_written, if_pos rfl]
  refine ⟨_, w', ?_, ht', hw', ?_⟩
  · rw [write_eq, hemit]
  · have hfree' := (ht'.within hr hw').2.2.2
    rw [hfree', hfree]
    dsimp only [w']
    omega

/-- A request that there is room for is written. -/
theorem write_room (hr : r.Laid) (ht : Tidy r l c)
    (hw : (c.chain side).writer = some w) (hi : i.Known)
    (hroom : b.maxLength ≤ w.free) : ∃ c' w', write b side w i c = .ok () c' ∧ Tidy r l c' ∧
      (c'.chain side).writer = some w' ∧ w.free - b.maxLength ≤ w'.free :=
  let ⟨_, hencode, _⟩ := known_writable b hi w.pos
  write_fits hr ht hw hencode hroom

section

variable (hr : r.Laid) (hpage : 1024 ≤ r.pageSize)
include hr hpage

/-- The writer of a new page has all of it. -/
theorem turned_room (ht : Tidy r l c) {region : CodePages} {h : Nat}
    (htake : c.region.take? (c.chain side).kind = some (region, h)) :
    Tidy r l (c.turned side region h) ∧
      ((c.turned side region h).chain side).writer = some (blankPage region h) ∧
      1024 ≤ (blankPage region h).free := by
  have ht' := (ht.turned hr.toSized htake).1
  have hw : ((c.turned side region h).chain side).writer = some (blankPage region h) := by
    simp [turned]
  refine ⟨ht', hw, ?_⟩
  have hfree := (ht'.within hr hw).2.2.2
  have hbounds := (ht.drawn.bounds_take hr.toSized htake).2
  have hbytes := hr.toSized.bytes_eq
  have hmul : (h + 1) * r.bytes = h * r.bytes + r.bytes := Nat.succ_mul h r.bytes
  rw [hfree]
  unfold blankPage
  rw [hbounds]
  dsimp only
  omega

/-- A writer with room is had unless there is no free page. -/
theorem ensure_room (ht : Tidy r l c) : Ensures (Stops r.pages.size) (ensure b side) c fun w c' =>
    Tidy r l c' ∧ (c'.chain side).writer = some w ∧ b.maxLength ≤ w.free := by
  have hlength : (b.maxLength : Int) ≤ 512 := by cases b <;> decide
  rcases ensure_eq b side c
    with ⟨w, hw, hroom, heq⟩ | ⟨hnone, heq⟩ | ⟨region, h, htake, ⟨-, heq⟩ | ⟨old, -, -, heq⟩⟩
  · refine (ensures_ok heq).mpr ⟨ht, hw, ?_⟩
    unfold room at hroom
    omega
  · obtain ⟨l', hf, -⟩ := ht.drawn.frees
    obtain rfl := CodePages.take?_none hf hnone
    exact (ensures_error heq).mpr ⟨_, rfl, ht.drawn.size ▸ .space _ hf⟩
  · obtain ⟨ht', hw, hfree⟩ := turned_room hr hpage ht htake
    exact (ensures_ok heq).mpr ⟨ht', hw, by omega⟩
  · obtain ⟨ht', hw, hfree⟩ := turned_room hr hpage ht htake
    obtain ⟨c', w', hwrite, ht'', hw', hfree'⟩ :=
      write_room (b := b) (i := .jump old.pos) hr ht' hw trivial (by omega)
    -- the jump to the page before leaves enough of the new one
    have hjump : ensure b side c = .ok w' c' := by
      rw [heq, bind_ok hwrite]
      show EStateM.Result.ok ((c'.chain side).writer.getD _) c' = _
      rw [hw']
      rfl
    exact (ensures_ok hjump).mpr ⟨ht'', hw', by omega⟩

theorem emit_room (ht : Tidy r l c) (hi : i.Known) :
    Ensures (Stops r.pages.size) (emit b side i) c fun _ c' => Tidy r l c' :=
  (ensure_room hr hpage ht).bind fun _ _ ⟨ht₁, hw, hfree⟩ =>
    let ⟨_, _, hwrite, ht₂, _⟩ := write_room hr ht₁ hw hi hfree
    (ensures_ok hwrite).mpr ht₂

theorem emitBranch_room (ht : Tidy r l c) (hi : i.Known) :
    Ensures (Stops r.pages.size) (emitBranch b side i) c fun _ c' => Tidy r l c' := by
  refine (ensure_room hr hpage ht).bind fun w c₁ ⟨ht₁, hw, hfree⟩ => ?_
  obtain ⟨c₂, _, hwrite, ht₂, -⟩ := write_room hr ht₁ hw hi hfree
  exact .bind (Q := fun _ => Tidy r l) ((ensures_ok hwrite).mpr ht₂) fun _ _ h => .pure h

theorem pos_room (ht : Tidy r l c) :
    Ensures (Stops r.pages.size) (pos b side) c fun _ c' => Tidy r l c' := by
  unfold pos
  refine .get ?_
  split
  · exact .pure ht
  · exact (ensure_room hr hpage ht).bind fun _ _ h => .pure h.1

end

end Code

end LoopTracer.Compile

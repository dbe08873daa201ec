import LoopTracer.Proofs.Machine.Branches
import LoopTracer.Proofs.Number.Narrowing

/-! Branches that are written and then patched.

A jump or a guard is some bytes around the four of its distance (`BranchForm`). Once it is written
(`LeadsTo.stands`) it is decoded as leading to its target, patching it writes those four bytes and
nothing else (`Stands.patch`), and that is undone by patching it back. Branches none of which was
written over another are patched in any order with the same bytes (`Stands.patches_commute`). -/
namespace LoopTracer.Machine

/-- A jump or a guard that leads to `target`. -/
inductive Instr.LeadsTo (target : CodeAddr) : Instr → Prop where
  | jump : LeadsTo target (.jump target)
  | zero (r : Reg) : LeadsTo target (.guard .zero r target)
  | nonZero (r : Reg) : LeadsTo target (.guard .nonZero r target)
  | overflow (r : Reg) : LeadsTo target (.guard .overflow r target)

/-- The bytes of a branch other than those of its distance: what tests the condition in front of its
site, what stands at the site, and what comes behind the distance. -/
structure BranchForm where
  test : List UInt8 := []
  head : List UInt8
  tail : List UInt8 := []

namespace BranchForm

/-- How far behind its site a branch ends. -/
def reach (f : BranchForm) : Nat := f.head.length + 4 + f.tail.length

/-- How many bytes a branch takes. -/
def length (f : BranchForm) : Nat := f.test.length + f.reach

/-- The four bytes that lead a branch at `site` to `target`. -/
def field (f : BranchForm) (site target : CodeAddr) : List UInt8 :=
  X64.int32Bytes (distance target ((site.toNat : Int) + f.reach))

/-- What stands at the site of a branch and behind it. -/
def bytes (f : BranchForm) (site target : CodeAddr) : List UInt8 :=
  f.head ++ (f.field site target ++ f.tail)

end BranchForm

/-- The opcode of a conditional branch. -/
def X64.guardOpcode : GuardCond → UInt8
  | .zero => 0x84
  | .nonZero => 0x85
  | _ => 0x80

/-- The form of a branch in each encoding. -/
def Backend.branchForm : Backend → Instr → BranchForm
  | virtual, .guard cond r _ =>
    { head := [Virtual.Opcode.guard.toByte, r.byte, cond.toByte, 0], tail := littleEndian 8 0 }
  | virtual, _ => { head := [Virtual.Opcode.jump.toByte, 0, 0, 0], tail := littleEndian 8 0 }
  | x64, .guard .overflow _ _ => { head := [0x0F, X64.guardOpcode .overflow] }
  | x64, .guard cond r _ =>
    { test := [X64.rex true (X64.high r) false (X64.high r), 0x85,
      X64.modrm 3 (X64.low r) (X64.low r)]
      head := [0x0F, X64.guardOpcode cond] }
  | x64, _ => { head := [0xE9] }

/-- At `site` there is a branch of this form, and it leads to `target`. -/
structure Stands (f : BranchForm) (mem : Memory) (site target : CodeAddr) : Prop where
  inside : site.toNat + f.reach ≤ mem.size
  shows : mem.Shows site.toNat (f.bytes site target)

/-- A writer with room for `n` bytes of a memory. -/
structure Writer.HasRoom (w : Writer) (mem : Memory) (n : Nat) : Prop where
  low : 0 ≤ w.low
  room : w.low + n ≤ w.cursor
  high : w.cursor ≤ mem.size

/-- Two memories with the same bytes. -/
structure Memory.SameBytes (m m' : Memory) : Prop where
  size : m'.size = m.size
  bytes : ∀ a, m'.get? a = m.get? a

section

variable {b : Backend} {f f' : BranchForm} {mem mem' : Memory}
  {site site' t t' : CodeAddr} {i : Instr}
  {w : Writer}

@[simp] theorem BranchForm.length_field (f : BranchForm) (site target : CodeAddr) :
    (f.field site target).length = 4 := length_littleEndian _ _

theorem BranchForm.length_bytes (f : BranchForm) (site target : CodeAddr) :
    (f.bytes site target).length = f.reach := by
  simp only [bytes, List.length_append, length_field, reach]
  omega

theorem BranchForm.head_reach (f : BranchForm) : f.head.length + 4 ≤ f.reach := by
  unfold reach
  omega

/-! ### Writing -/

/-- A branch is encoded in its form. -/
theorem Instr.LeadsTo.encode (h : i.LeadsTo t) (pos : CodeAddr) :
    b.encode pos i =
      .ok ((b.branchForm i).test ++ (b.branchForm i).bytes (b.branchSite pos i) t) := by
  cases b <;> cases h <;> rfl

/-- Where the branch that ends at `pos` begins. -/
theorem Instr.LeadsTo.toNat_branchSite (h : i.LeadsTo t) {pos : CodeAddr}
    (hpos : (b.branchForm i).reach ≤ pos.toNat) :
    (b.branchSite pos i).toNat = pos.toNat - (b.branchForm i).reach := by
  cases b <;> cases h <;> exact toNat_sub_of_le hpos

theorem Writer.HasRoom.toNat_pos {n : Nat} (hw : w.HasRoom mem n) (hsize : mem.size < 2 ^ 32) :
    w.pos.toNat = w.cursor.toNat := by
  have := hw.low
  have := hw.room
  have := hw.high
  exact toNat_ofInt (by omega) (by omega)

/-- Bytes for which there is room are written right before the cursor. -/
theorem Writer.HasRoom.prepend {bytes : List UInt8} (hw : w.HasRoom mem bytes.length)
    (hsize : mem.size < 2 ^ 32) :
    w.prepend mem bytes =
      ({ w with cursor := w.cursor - bytes.length },
        mem.write (w.cursor - bytes.length).toNat bytes, none) := by
  have hlow := hw.low
  have hroom := hw.room
  have hhigh := hw.high
  have hfree : w.free = w.cursor - w.low := signed64_eq (by omega) (by omega)
  unfold Writer.prepend
  dsimp only
  rw [if_neg (by omega), if_neg (by simp only [Bool.or_eq_true, decide_eq_true_eq]; omega)]

/-- A branch that was written stands at its site, and no byte but its own was changed. -/
theorem Instr.LeadsTo.stands (h : i.LeadsTo t) (hm : mem.Valid) (hsize : mem.size < 2 ^ 32)
    (hw : w.HasRoom mem (b.branchForm i).length) :
    ∃ mem', w.emit b mem i = ({ w with cursor := w.cursor - (b.branchForm i).length }, mem', none) ∧
      mem'.Valid ∧ mem'.size = mem.size ∧ Stands (b.branchForm i) mem' (b.branchSite w.pos i) t ∧
      ((b.branchSite w.pos i).toNat : Int) + (b.branchForm i).reach = w.cursor ∧
      ∀ a : Nat, (a : Int) < w.cursor - (b.branchForm i).length ∨ w.cursor ≤ a →
      mem'.get? a = mem.get? a := by
  have hlow := hw.low
  have hroom := hw.room
  have hhigh := hw.high
  have hpos := hw.toNat_pos hsize
  have hencode := h.encode (b := b) w.pos
  have hparts : (b.branchForm i).length = (b.branchForm i).test.length + (b.branchForm i).reach :=
    rfl
  have hsite := h.toNat_branchSite (show (b.branchForm i).reach ≤ w.pos.toNat by omega)
  generalize b.branchForm i = f at *
  generalize b.branchSite w.pos i = site at *
  have hlength : (f.test ++ f.bytes site t).length = f.length := by
    rw [List.length_append, f.length_bytes, BranchForm.length]
  have hreach := f.head_reach
  have hprepend := Writer.HasRoom.prepend (hlength ▸ hw) hsize
  rw [hlength] at hprepend
  have hfit : (w.cursor - f.length).toNat + (f.test ++ f.bytes site t).length ≤ mem.size := by omega
  have htest : (w.cursor - f.length).toNat + f.test.length = site.toNat := by omega
  refine ⟨mem.write (w.cursor - f.length).toNat (f.test ++ f.bytes site t), ?_,
    Memory.write_valid hm _ _,
    Memory.size_write .., ⟨?_, ?_⟩, ?_, fun a ha => ?_⟩
  · unfold Writer.emit
    rw [hencode]
    split
    · next heq => cases heq
    · next heq =>
      rw [Except.ok.inj heq, List.length_nil] at hlength
      omega
    · next heq =>
      obtain rfl := Except.ok.inj heq
      exact hprepend
  · rw [Memory.size_write]
    omega
  · have := (Memory.shows_write hm hfit).append_right
    rwa [htest] at this
  · omega
  · rw [Memory.get?_write hm hfit, if_neg (by omega)]

/-! ### Decoding and patching -/

/-- The form of some branch. -/
def Backend.Branches (b : Backend) (f : BranchForm) : Prop :=
  ∃ i t, Instr.LeadsTo t i ∧ b.branchForm i = f

/-- Only the bytes of a branch matter. -/
theorem Stands.congr (h : Stands f mem site t) (hsize : mem'.size = mem.size)
    (hsame : ∀ a, site.toNat ≤ a → a < site.toNat + f.reach → mem'.get? a = mem.get? a) :
    Stands f mem' site t := by
  refine ⟨hsize ▸ h.inside, h.shows.congr fun a hlow hhigh => hsame a hlow ?_⟩
  rwa [f.length_bytes] at hhigh

/-- The distance of a branch can be overwritten. -/
theorem Stands.retarget (h : Stands f mem site t) (hm : mem.Valid) (t' : CodeAddr) :
    Stands f (mem.write (site.toNat + f.head.length) (f.field site t')) site t' where
  inside := by
    rw [Memory.size_write]
    exact h.inside
  shows := h.shows.replace hm (by simp) (by rw [← BranchForm.bytes, f.length_bytes]; exact h.inside)

/-- The distance of a branch lies inside the memory. -/
theorem Stands.field_inside (h : Stands f mem site t) :
    site.toNat + f.head.length + 4 ≤ mem.size :=
  Nat.le_trans (by have := f.head_reach; omega) h.inside

theorem X64.branchAt_conditional {cc : UInt8} (hcc : cc &&& 0xF0 = 0x80)
    (hsize : site.toNat + 1 < 2 ^ 32)
    (hshows : mem.Shows site.toNat [0x0F, cc]) : branchAt mem site = .ok (site + 2, site + 6) := by
  have hsecond : mem.get? (site + 1).toNat = some cc := by
    rw [show site + 1 = site + (1 : Nat).toUInt32 from rfl, toNat_add_of_lt hsize]
    exact hshows 1 _ rfl
  have hfirst : mem.get? site.toNat = some 0x0F := hshows 0 _ rfl
  unfold branchAt
  rw [hfirst, hsecond]
  simp only [hcc, beq_self_eq_true, if_true]

/-- Where the distance of a branch lies, and where the branch ends. -/
theorem X64.branchAt_of_stands (hf : Backend.x64.Branches f) (hsize : mem.size < 2 ^ 32)
    (h : Stands f mem site t) :
    branchAt mem site = .ok (site + f.head.length.toUInt32, site + f.reach.toUInt32) := by
  have hinside := h.inside
  have hshows := h.shows.append_left
  have hreach := f.head_reach
  obtain ⟨i, t, hi, rfl⟩ := hf
  cases hi with
  | jump => exact branchAt_jump (hshows 0 _ rfl)
  | zero r => exact branchAt_conditional (by decide) (by omega) hshows
  | nonZero r => exact branchAt_conditional (by decide) (by omega) hshows
  | overflow r => exact branchAt_conditional (by decide) (by omega) hshows

theorem Virtual.reach_of_branches (hf : Backend.virtual.Branches f) :
    f.head.length = 4 ∧ f.reach = wordSize ∧
      ∃ op : UInt8, f.head.head? = some op ∧
      (Opcode.ofByte op = .jump ∨ Opcode.ofByte op = .guard) := by
  obtain ⟨i, t, hi, rfl⟩ := hf
  cases hi with
  | jump => exact ⟨rfl, rfl, _, rfl, .inl (by decide)⟩
  | _ => exact ⟨rfl, rfl, _, rfl, .inr (by decide)⟩

/-- A branch is decoded as one to its target. -/
theorem Stands.branchTarget (h : Stands f mem site t) (hf : b.Branches f)
    (hsize : mem.size < 2 ^ 32) :
    b.branchTarget mem site = .ok t := by
  have hinside := h.inside
  have hfield : mem.Shows (site.toNat + f.head.length) (f.field site t) :=
    h.shows.append_right.append_left
  cases b with
  | virtual =>
    obtain ⟨hhead, hreach, -⟩ := Virtual.reach_of_branches hf
    rw [BranchForm.field, hhead, hreach] at hfield
    exact Virtual.branchTarget_of_shows (hreach ▸ hinside) hsize hfield
  | x64 =>
    have hreach := f.head_reach
    have hplace : (site + f.head.length.toUInt32).toNat = site.toNat + f.head.length :=
      toNat_add_of_lt (by omega)
    have hstop : (site + f.reach.toUInt32).toNat = site.toNat + f.reach :=
      toNat_add_of_lt (by omega)
    have hroom := h.field_inside
    unfold Backend.branchTarget X64.branchTarget
    dsimp only
    rw [X64.branchAt_of_stands hf hsize h]
    show (if mem.size < (site + f.head.length.toUInt32).toNat + 4 then _
      else _ : Except Fault CodeAddr) = _
    rw [hplace, hstop, if_neg (by omega), hfield.distance]
    show Except.ok (UInt32.ofInt (((site.toNat + f.reach : Nat) : Int) + _)) = _
    rw [Int.natCast_add, ofInt_distance]

/-- A branch is patched by overwriting its distance. -/
theorem Stands.patch (h : Stands f mem site t) (hf : b.Branches f)
    (hsize : mem.size < 2 ^ 32) (t' : CodeAddr) :
    b.patch mem site t' = .ok (mem.write (site.toNat + f.head.length) (f.field site t')) := by
  have hinside := h.inside
  cases b with
  | virtual =>
    obtain ⟨hhead, hreach, op, hop, hbranch⟩ := Virtual.reach_of_branches hf
    have hopcode : mem.get? site.toNat = some op :=
      h.shows.append_left 0 op (by rw [← List.head?_eq_getElem?, hop])
    have hnot : (Virtual.Opcode.ofByte op != .jump && Virtual.Opcode.ofByte op != .guard) =
        false := by
      rcases hbranch with hop | hop <;> rw [hop] <;> rfl
    unfold Backend.patch Virtual.patch
    dsimp only
    rw [hopcode]
    dsimp only
    rw [hnot, if_neg Bool.false_ne_true, Virtual.field?_eq (hreach ▸ hinside) hsize, hhead,
      BranchForm.field, hreach]
    rfl
  | x64 =>
    have hreach := f.head_reach
    have hplace : (site + f.head.length.toUInt32).toNat = site.toNat + f.head.length :=
      toNat_add_of_lt (by omega)
    have hstop : (site + f.reach.toUInt32).toNat = site.toNat + f.reach :=
      toNat_add_of_lt (by omega)
    have hroom := h.field_inside
    unfold Backend.patch X64.patch
    dsimp only
    rw [X64.branchAt_of_stands hf hsize h]
    show (if mem.size < (site + f.head.length.toUInt32).toNat + 4 then _
      else _ : Except Fault Memory) = _
    rw [hplace, hstop, if_neg (by omega), BranchForm.field, Int.natCast_add]
    rfl

/-! ### What patching changes -/

/-- After the branch at `site`, which led to `t` over the distance at `place`, was patched to lead
to `t'`: it leads there, only the four bytes of its distance may have changed, and it can be patched
back, so that all bytes are as before. -/
structure PatchedExactly (b : Backend) (mem : Memory) (site : CodeAddr)
    (place : Nat) (t t' : CodeAddr)
    (patched : Memory) : Prop where
  leads : b.branchTarget patched site = .ok t'
  size : patched.size = mem.size
  apart : ∀ a, a < place ∨ place + 4 ≤ a → patched.get? a = mem.get? a
  undone : ∃ restored, b.patch patched site t = .ok restored ∧ mem.SameBytes restored

/-- The branches at `site` and `site'` can be patched one after the other, in both orders with the
same bytes. -/
def PatchesCommute (b : Backend) (mem : Memory) (site u site' u' : CodeAddr) : Prop :=
  ∃ one two one' two', b.patch mem site u = .ok one ∧ b.patch one site' u' = .ok two ∧
    b.patch mem site' u' = .ok one' ∧ b.patch one' site u = .ok two' ∧ two.SameBytes two'

theorem Stands.patchedExactly (h : Stands f mem site t) (hf : b.Branches f) (hm : mem.Valid)
    (hsize : mem.size < 2 ^ 32) (t' : CodeAddr) :
    ∃ patched, b.patch mem site t' = .ok patched ∧
      PatchedExactly b mem site (site.toNat + f.head.length) t t' patched := by
  have hinside := h.field_inside
  have h' := h.retarget hm t'
  have hsize' := Memory.size_write mem (site.toNat + f.head.length) (f.field site t')
  have hvalid := Memory.write_valid hm (site.toNat + f.head.length) (f.field site t')
  have hshown : mem.Shows (site.toNat + f.head.length) (f.field site t) :=
    h.shows.append_right.append_left
  refine ⟨_, h.patch hf hsize t', h'.branchTarget hf (hsize' ▸ hsize), hsize', fun a ha => ?_, _,
    h'.patch hf (hsize' ▸ hsize) t, ?_, fun a => ?_⟩
  · rw [Memory.get?_write hm (by rw [f.length_field]; omega),
      if_neg (by rw [f.length_field]; omega)]
  · rw [Memory.size_write, hsize']
  · rw [Memory.get?_write hvalid (by rw [f.length_field, hsize']; omega),
      Memory.get?_write hm (by rw [f.length_field]; omega), f.length_field, f.length_field]
    by_cases ha : site.toNat + f.head.length ≤ a ∧ a < site.toNat + f.head.length + 4
    · have hlt : a - (site.toNat + f.head.length) < (f.field site t).length := by
        rw [f.length_field]; omega
      have hbyte := hshown _ _ (List.getElem?_eq_getElem hlt)
      rw [if_pos ha, List.getElem?_eq_getElem hlt, ← hbyte]
      congr 1
      omega
    · rw [if_neg ha, if_neg ha]

/-- Branches whose bytes lie apart are patched in any order. -/
theorem Stands.patches_commute (h : Stands f mem site t) (h' : Stands f' mem site' t')
    (hf : b.Branches f)
    (hf' : b.Branches f') (hm : mem.Valid) (hsize : mem.size < 2 ^ 32)
    (hapart : site.toNat + f.reach ≤ site'.toNat ∨ site'.toNat + f'.reach ≤ site.toNat)
    (u u' : CodeAddr) :
    PatchesCommute b mem site u site' u' := by
  have hinside := h.field_inside
  have hinside' := h'.field_inside
  have hreach : f.reach = f.head.length + 4 + f.tail.length := rfl
  have hreach' : f'.reach = f'.head.length + 4 + f'.tail.length := rfl
  have hvalid := Memory.write_valid hm (site.toNat + f.head.length) (f.field site u)
  have hvalid' := Memory.write_valid hm (site'.toNat + f'.head.length) (f'.field site' u')
  -- neither patch touches the other branch
  have hkept' : Stands f' (mem.write (site.toNat + f.head.length) (f.field site u)) site' t' :=
    h'.congr (Memory.size_write ..) fun a _ _ => by
      rw [Memory.get?_write hm (by rw [f.length_field]; omega),
        if_neg (by rw [f.length_field]; omega)]
  have hkept : Stands f (mem.write (site'.toNat + f'.head.length) (f'.field site' u')) site t :=
    h.congr (Memory.size_write ..) fun a _ _ => by
      rw [Memory.get?_write hm (by rw [f'.length_field]; omega),
        if_neg (by rw [f'.length_field]; omega)]
  refine ⟨_, _, _, _, h.patch hf hsize u, hkept'.patch hf' (by rwa [Memory.size_write]) u',
    h'.patch hf' hsize u', hkept.patch hf (by rwa [Memory.size_write]) u, by
      simp only [Memory.size_write],
    fun a => ?_⟩
  rw [Memory.get?_write hvalid' (by rw [f.length_field, Memory.size_write]; omega),
    Memory.get?_write hm (by rw [f'.length_field]; omega),
    Memory.get?_write hvalid (by rw [f'.length_field, Memory.size_write]; omega),
    Memory.get?_write hm (by rw [f.length_field]; omega)]
  simp only [f.length_field, f'.length_field]
  by_cases ha : site.toNat + f.head.length ≤ a ∧ a < site.toNat + f.head.length + 4
  · rw [if_pos ha, if_neg (by omega), if_pos ha]
  · rw [if_neg ha, if_neg ha]

/-- A jump or guard that a writer has room for is written, and its site is that of a branch to its
target; patching it is exact and can be undone. A branch that is written later, at whatever place
but over the first one, has another site, and the two are patched in any order. -/
theorem branches_patched_exactly (b : Backend) (hi : i.LeadsTo t) (hm : mem.Valid)
    (hsize : mem.size < 2 ^ 31)
    (hw : w.HasRoom mem (b.branchForm i).length) :
    ∃ mem', w.emit b mem i = ({ w with cursor := w.cursor - (b.branchForm i).length }, mem', none) ∧
      mem'.Valid ∧ mem'.size = mem.size ∧ b.branchTarget mem' (b.branchSite w.pos i) = .ok t ∧
      (∀ t', ∃ patched, b.patch mem' (b.branchSite w.pos i) t' = .ok patched ∧
        PatchedExactly b mem' (b.branchSite w.pos i)
          ((b.branchSite w.pos i).toNat + (b.branchForm i).head.length) t t' patched) ∧
      ∀ (later : Memory) (v : Writer) (j : Instr)
      (s : CodeAddr), later.Valid → later.size = mem.size →
        (∀ a : Nat, w.cursor - (b.branchForm i).length ≤ a → (a : Int) < w.cursor →
          later.get? a = mem'.get? a) →
        j.LeadsTo s → v.HasRoom later (b.branchForm j).length →
        (v.cursor ≤ w.cursor - (b.branchForm i).length ∨
          w.cursor ≤ v.cursor - (b.branchForm j).length) →
        ∃ both, v.emit b later j =
          ({ v with cursor := v.cursor - (b.branchForm j).length }, both, none) ∧
          b.branchSite w.pos i ≠ b.branchSite v.pos j ∧
          ∀ u u', PatchesCommute b both (b.branchSite w.pos i) u (b.branchSite v.pos j) u' := by
  have hsize' : mem.size < 2 ^ 32 := by omega
  obtain ⟨mem', hemit, hvalid, hkept, hstands, hend, -⟩ := hi.stands hm hsize' hw
  have hf : b.Branches (b.branchForm i) := ⟨i, t, hi, rfl⟩
  refine ⟨mem', hemit, hvalid, hkept, hstands.branchTarget hf (hkept ▸ hsize'),
    fun t' => hstands.patchedExactly hf hvalid (hkept ▸ hsize') t', ?_⟩
  intro later v j s hlater hlaterSize hsame hj hv hapart
  obtain ⟨both, hemit', hvalid', hkept', hstands', hend', hrest⟩ :=
    hj.stands hlater (hlaterSize ▸ hsize') hv
  have hf' : b.Branches (b.branchForm j) := ⟨j, s, hj, rfl⟩
  have hreach := (b.branchForm i).head_reach
  have hreach' := (b.branchForm j).head_reach
  have hlength : (b.branchForm i).length = (b.branchForm i).test.length + (b.branchForm i).reach :=
    rfl
  have hlength' : (b.branchForm j).length = (b.branchForm j).test.length + (b.branchForm j).reach :=
    rfl
  -- the second branch was not written over the first one
  have hstill : Stands (b.branchForm i) both (b.branchSite w.pos i) t :=
    hstands.congr (by rw [hkept', hlaterSize, hkept]) fun a hlow hhigh => by
      rw [hrest a (by omega), hsame a (by omega) (by omega)]
  refine ⟨both, hemit', fun heq => ?_, fun u u' =>
    hstill.patches_commute hstands' hf hf' hvalid' (by omega) (by omega) u u'⟩
  rw [heq] at hend
  omega

/-- Two guards, the second one written right in front of the first. -/
theorem two_guards_patched : ∃ mem',
    Writer.emit ⟨0, 64⟩ .x64 { size := 64 } (.guard .zero 3 16) = (⟨0, 55⟩, mem', none) ∧
      Backend.x64.branchTarget mem' 58 = .ok 16 ∧
      ∃ both, Writer.emit ⟨0, 55⟩ .x64 mem' (.guard .overflow 0 48) = (⟨0, 49⟩, both, none) ∧
        PatchesCommute .x64 both 58 32 49 0 := by
  obtain ⟨mem', hemit, hvalid, hsize, htarget, -, hlater⟩ := branches_patched_exactly .x64
    (w := ⟨0, 64⟩) (i := .guard .zero 3 16) (.zero 3) (Memory.valid_blank 64) (by decide)
    ⟨by decide, by decide, by decide⟩
  obtain ⟨both, hboth, -, hcommute⟩ := hlater mem' ⟨0, 55⟩ (.guard .overflow 0 48) 48 hvalid hsize
    (fun _ _ _ => rfl) (.overflow 0) ⟨by decide, by decide, by rw [hsize]; decide⟩
      (.inl (by decide))
  exact ⟨mem', hemit, htarget, both, hboth, hcommute 32 0⟩

end

end LoopTracer.Machine

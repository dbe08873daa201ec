import LoopTracer.Monitor.Config
import LoopTracer.Compile.CodePages
import LoopTracer.Proofs.Machine.Patching

/-! What accepted settings promise, and what they do not.

Sizes are whole numbers in the settings, but addresses have 32 bits, and so have the distances of
branches, the frames of compiled code and the displacements of spill slots; those are signed. The
test of the settings has no upper limits. With settings that it accepts none of these numbers wraps
around exactly if the code region has at most `2 ^ 31` bytes and there are at most `2 ^ 28 - 5`
spill slots (`Config.addressable_iff`). -/
namespace LoopTracer

open Machine Compile

variable {c : Config} {u : Unit}

namespace Monitor

/-! ### The test of the settings -/

theorem validate_positive (h : c.validate = .ok u) {s : String × Int}
    (hs : s ∈ c.positive) : 0 < s.2 := by
  have hnone : c.positive.find? (fun x => x.2 ≤ 0) = none := by
    cases hfound : c.positive.find? (fun x => x.2 ≤ 0) with
    | none => rfl
    | some setting =>
      unfold Config.validate at h
      erw [hfound] at h
      simp only [bind, Except.bind, throw, throwThe, MonadExceptOf.throw] at h
      split at h <;> cases h
  simpa using List.find?_eq_none.mp hnone s hs

theorem validate_attempts (h : c.validate = .ok u) :
    0 < c.maxRecordAttempts ∧ 0 < c.maxBranchAttempts :=
  ⟨validate_positive h (s := ("max_record_attempts", _)) (by simp [Config.positive]),
    validate_positive h (s := ("max_branch_attempts", _)) (by simp [Config.positive])⟩

theorem validate_region (h : c.validate = .ok u) : 1024 ≤ c.pageSize ∧ 2 ≤ c.maxCodePages := by
  refine Classical.byContradiction fun hnot => ?_
  rw [Classical.not_and_iff_not_or_not, Int.not_le, Int.not_le] at hnot
  unfold Config.validate at h
  simp [bind, Except.bind, throw, throwThe, MonadExceptOf.throw] at h
  grind

theorem validate_pageSize (h : c.validate = .ok u) : 1024 ≤ c.pageSize := (validate_region h).1

theorem validate_of_isOk (h : c.validate.isOk = true) : c.validate = .ok () := by
  cases hvalid : c.validate with
  | ok u => rfl
  | error e =>
    rw [hvalid] at h
    cases h

end Monitor

/-! ### Frames and displacements -/

namespace Machine

theorem Target.limit_spillDisp (t : Target) (n slot : Int) :
    (t.limit n).spillDisp slot = t.spillDisp slot := by
  unfold Target.limit
  split <;> rfl

/-- A displacement is narrowed once, after it was computed. -/
theorem Target.spillDisp_eq (t : Target) (slot : Int) :
    t.spillDisp slot = Int32.ofInt (t.frameOffset.toInt + slot * t.slotStride.toInt) := by
  rw [Int32.ofInt_add, Int32.ofInt_mul, Int32.ofInt_toInt, Int32.ofInt_toInt, Target.spillDisp]

namespace Backend

/-- What a prologue asks for: so many slots, or so many bytes, which keep the stack aligned. -/
def frameSize : Backend → Int → Int
  | virtual, slots => slots
  | x64, slots => if slots % 2 = 0 then slots * 8 + 8 else slots * 8

/-- The bytes of a prologue with its operand. -/
def prologueBytes : Backend → Int32 → List UInt8
  | virtual, n => Virtual.Word.bytes { op := .prologue, x := n }
  | x64, n => X64.pushReg 5 ++ X64.movRR 5 4 ++ x64Saved.flatMap X64.pushReg ++ X64.adjustStack 5 n
      ++ X64.movRR x64Target.stateBase 7

/-- A prologue for fewer than `2 ^ 28` slots asks for the frame that they need. -/
theorem encode_prologue (b : Backend) (pos : CodeAddr) {slots : Int} (hlow : 0 ≤ slots)
    (hhigh : slots < 2 ^ 28) :
    b.encode pos (.prologue slots) = .ok (b.prologueBytes (Int32.ofInt (b.frameSize slots))) := by
  cases b with
  | virtual => rfl
  | x64 =>
    have hbytes : (Int32.ofInt (slots * 8)).toInt = slots * 8 := toInt_ofInt_iff.mpr (by omega)
    have hmod : (Int32.ofInt (slots * 8) % 16).toInt = slots * 8 % 16 := by
      rw [Int32.toInt_mod, hbytes]
      exact Int.tmod_eq_emod_of_nonneg (by omega)
    have hmul : Int32.ofInt slots * 8 = Int32.ofInt (slots * 8) := (Int32.ofInt_mul slots 8).symm
    have hrest : Int32.ofInt slots * 8 % 16 == 0 ↔ slots % 2 = 0 := by
      rw [beq_iff_eq, ← Int32.toInt_inj, hmul, hmod, Int32.toInt_zero]
      omega
    have hfield : (if Int32.ofInt slots * 8 % 16 == 0 then Int32.ofInt slots * 8 + 8
      else Int32.ofInt slots * 8) =
        Int32.ofInt (if slots % 2 = 0 then slots * 8 + 8 else slots * 8) := by
      by_cases heven : slots % 2 = 0
      · rw [if_pos (hrest.mpr heven), if_pos heven, hmul, Int32.ofInt_add]
        rfl
      · rw [if_neg fun h => heven (hrest.mp h), if_neg heven, hmul]
    show Except.ok (X64.prologue slots) = _
    unfold X64.prologue
    dsimp only
    rw [hfield]
    rfl

end Backend

/-- A branch of this form at `site` reaches `target` over its distance, which did not wrap around. -/
def BranchForm.Reaches (f : BranchForm) (site target : CodeAddr) : Prop :=
  (site.toNat : Int) + f.reach + (distance target ((site.toNat : Int) + f.reach)).toInt =
    target.toNat

theorem BranchForm.reaches_iff {f : BranchForm} {site target : CodeAddr} : f.Reaches site target ↔
    -2 ^ 31 ≤ (target.toNat : Int) - (site.toNat + f.reach) ∧
    (target.toNat : Int) - (site.toNat + f.reach) < 2 ^ 31 := by
  rw [← toInt_ofInt_iff, Reaches, distance]
  omega

end Machine

/-! ### Numbers that do not wrap around -/

namespace Config

/-- No number of the code region and of frames wraps around: neither the size of the region and the
bounds of its pages nor the distance of a branch, so a branch that is written or patched is decoded
as one to its target and reaches it; nor the frame of compiled code and the displacements of its
spill slots, for either back end. -/
structure Addressable (c : Config) : Prop where
  size : signed64 (c.maxCodePages * c.pageSize) = c.maxCodePages * c.pageSize
  pages : ∀ r : CodePages, r.pageSize = c.pageSize → ∀ h : Nat, (h : Int) < c.maxCodePages →
    ((UInt32.ofInt (r.bounds h).1).toNat : Int) = h * c.pageSize ∧
      ((UInt32.ofInt (r.bounds h).2).toNat : Int) = h * c.pageSize + c.pageSize
  distances : ∀ (b : Backend) (f : BranchForm), b.Branches f → ∀ site target : CodeAddr,
    (site.toNat : Int) + f.reach ≤ c.maxCodePages * c.pageSize →
      (target.toNat : Int) < c.maxCodePages * c.pageSize →
      f.Reaches site target
  targets : ∀ (b : Backend) (i : Instr) (target : CodeAddr) (w : Writer) (mem : Memory),
    i.LeadsTo target → mem.Valid →
    (mem.size : Int) = c.maxCodePages * c.pageSize → w.HasRoom mem (b.branchForm i).length →
      ∃ mem', w.emit b mem i =
        ({ w with cursor := w.cursor - (b.branchForm i).length }, mem', none) ∧
        b.branchTarget mem' (b.branchSite w.pos i) = .ok target ∧
        ∀ target', ∃ patched, b.patch mem' (b.branchSite w.pos i) target' = .ok patched ∧
          b.branchTarget patched (b.branchSite w.pos i) = .ok target'
  frame : ∀ (b : Backend) (pos : CodeAddr), ∃ n : Int32,
    b.encode pos (.prologue c.maxSpillSlots) = .ok (b.prologueBytes n) ∧
      n.toInt = b.frameSize c.maxSpillSlots
  spills : ∀ (b : Backend) (limit : Int) (slot : Nat), (slot : Int) < c.maxSpillSlots →
    ((b.target.limit limit).spillDisp slot).toInt =
      b.target.frameOffset.toInt + slot * b.target.slotStride.toInt

/-- Settings for a small region and few slots. -/
theorem addressable_of_small (hsize : 1024 ≤ c.pageSize) (hpages : 2 ≤ c.maxCodePages)
    (hslots : 0 < c.maxSpillSlots)
    (hsmall : c.maxCodePages * c.pageSize ≤ 2 ^ 31)
    (hfew : c.maxSpillSlots ≤ 2 ^ 28 - 5) : c.Addressable where
  size := by
    have hnonneg : 0 ≤ c.maxCodePages * c.pageSize := Int.mul_nonneg (by omega) (by omega)
    exact signed64_eq (by omega) (by omega)
  pages r hr h hh := by
    have hlow : 0 ≤ (h : Int) * c.pageSize := Int.mul_nonneg (by omega) (by omega)
    have hhigh : (h : Int) * c.pageSize + c.pageSize ≤ c.maxCodePages * c.pageSize := by
      calc (h : Int) * c.pageSize + c.pageSize = (h + 1) * c.pageSize := by
            rw [Int.add_mul, Int.one_mul]
        _ ≤ c.maxCodePages * c.pageSize := Int.mul_le_mul_of_nonneg_right (by omega) (by omega)
    unfold CodePages.bounds
    rw [hr, signed64_eq (by omega) (by omega), signed64_eq (by omega) (by omega)]
    exact ⟨toNat_ofInt_iff.mpr (by omega), toNat_ofInt_iff.mpr (by omega)⟩
  distances b f hf site target hsite htarget := by
    have hreach := f.head_reach
    exact BranchForm.reaches_iff.mpr (by omega)
  targets b i target w mem hi hm hmem hw := by
    have hsize' : mem.size < 2 ^ 32 := by omega
    have hf : b.Branches (b.branchForm i) := ⟨i, target, hi, rfl⟩
    obtain ⟨mem', hemit, hvalid, hkept, hstands, -, -⟩ := hi.stands hm hsize' hw
    rw [← hkept] at hsize'
    refine ⟨mem', hemit, hstands.branchTarget hf hsize', fun target' => ?_⟩
    obtain ⟨patched, hpatch, hexact⟩ := hstands.patchedExactly hf hvalid hsize' target'
    exact ⟨patched, hpatch, hexact.leads⟩
  frame b pos := by
    refine ⟨_, b.encode_prologue pos (by omega) (by omega), toInt_ofInt_iff.mpr ?_⟩
    cases b with
    | virtual =>
      show -2 ^ 31 ≤ c.maxSpillSlots ∧ c.maxSpillSlots < 2 ^ 31
      omega
    | x64 =>
      show -2 ^ 31 ≤ (if c.maxSpillSlots % 2 = 0 then c.maxSpillSlots * 8 + 8
        else c.maxSpillSlots * 8) ∧
        (if c.maxSpillSlots % 2 = 0 then c.maxSpillSlots * 8 + 8 else c.maxSpillSlots * 8) < 2 ^ 31
      omega
  spills b limit slot hslot := by
    rw [Target.limit_spillDisp, Target.spillDisp_eq]
    refine toInt_ofInt_iff.mpr ?_
    cases b with
    | virtual =>
      show -2 ^ 31 ≤ 0 + (slot : Int) * 8 ∧ 0 + (slot : Int) * 8 < 2 ^ 31
      omega
    | x64 =>
      show -2 ^ 31 ≤ -48 + (slot : Int) * -8 ∧ -48 + (slot : Int) * -8 < 2 ^ 31
      omega

/-- A jump from the end of the region to its start reaches it only if the region is small. -/
theorem Addressable.small (h : c.Addressable) (hsize : 1024 ≤ c.pageSize)
    (hpages : 2 ≤ c.maxCodePages) :
    c.maxCodePages * c.pageSize ≤ 2 ^ 31 := by
  obtain ⟨n, hn⟩ := Int.eq_ofNat_of_zero_le (show 0 ≤ c.maxCodePages - 1 by omega)
  have htotal : (n : Int) * c.pageSize + c.pageSize = c.maxCodePages * c.pageSize := by
    rw [← hn, Int.sub_mul, Int.one_mul]
    omega
  have hlarge : 2 * 1024 ≤ c.maxCodePages * c.pageSize :=
    Int.mul_le_mul hpages hsize (by decide) (by omega)
  -- the end of the last page is an address
  have hend := (h.pages { pageSize := c.pageSize } rfl n (by omega)).2
  have hlt := (UInt32.ofInt (({ pageSize := c.pageSize } : CodePages).bounds n).2).toNat_lt
  rw [htotal] at hend
  let site : CodeAddr := UInt32.ofInt (c.maxCodePages * c.pageSize - 16)
  have hsite : (site.toNat : Int) = c.maxCodePages * c.pageSize - 16 :=
    toNat_ofInt_iff.mpr (by omega)
  have hjump :=
    h.distances .virtual (Backend.virtual.branchForm (.jump 0)) ⟨_, 0, .jump, rfl⟩ site 0
    (by rw [hsite]; show c.maxCodePages * c.pageSize - 16 + 16 ≤ _; omega)
      (by show (0 : Int) < _; omega)
  have hreach := (BranchForm.reaches_iff.mp hjump).1
  rw [hsite] at hreach
  change -2 ^ 31 ≤ 0 - (c.maxCodePages * c.pageSize - 16 + 16) at hreach
  omega

/-- The last spill slot lies in reach only if there are few. -/
theorem Addressable.few (h : c.Addressable) (hslots : 0 < c.maxSpillSlots) :
    c.maxSpillSlots ≤ 2 ^ 28 - 5 := by
  obtain ⟨n, hn⟩ := Int.eq_ofNat_of_zero_le (show 0 ≤ c.maxSpillSlots - 1 by omega)
  have hdisp := h.spills .x64 0 n (by omega)
  have hlow := ((Backend.x64.target.limit 0).spillDisp n).le_toInt
  rw [hdisp] at hlow
  change -2 ^ 31 ≤ -48 + (n : Int) * -8 at hlow
  omega

/-- With accepted settings no number of the code space wraps around, exactly if the code region is at
most as large as a signed distance reaches and the slot farthest from the frame's base is in reach. -/
theorem addressable_iff (hvalid : c.validate = .ok ()) : c.Addressable ↔
    c.maxCodePages * c.pageSize ≤ 2 ^ 31 ∧ c.maxSpillSlots ≤ 2 ^ 28 - 5 := by
  obtain ⟨hsize, hpages⟩ := Monitor.validate_region hvalid
  have hslots : 0 < c.maxSpillSlots :=
    Monitor.validate_positive hvalid (s := ("max_spill_slots", _)) (by simp [positive])
  exact ⟨fun h => ⟨h.small hsize hpages, h.few hslots⟩,
    fun h => addressable_of_small hsize hpages hslots h.1 h.2⟩

/-- The default settings are fine. Settings for four pages of `2 ^ 62` bytes are accepted, and so
are settings for `2 ^ 31` spill slots, but numbers wrap around. -/
theorem accepted_yet_unaddressable : ({} : Config).validate = .ok () ∧ ({} : Config).Addressable ∧
    (∃ c : Config, c.validate = .ok () ∧ c.maxCodePages = 4 ∧
      c.pageSize = 2 ^ 62 ∧ ¬ c.Addressable) ∧
    ∃ c : Config, c.validate = .ok () ∧ c.maxSpillSlots = 2 ^ 31 ∧ ¬ c.Addressable := by
  have hdefault : ({} : Config).validate = .ok () := Monitor.validate_of_isOk (by decide +kernel)
  have hlarge : ({ maxCodePages := 4, pageSize := 2 ^ 62 } : Config).validate = .ok () :=
    Monitor.validate_of_isOk (by decide +kernel)
  have hmany : ({ maxSpillSlots := 2 ^ 31 } : Config).validate = .ok () :=
    Monitor.validate_of_isOk (by decide +kernel)
  exact ⟨hdefault, (addressable_iff hdefault).mpr (by decide),
    ⟨_, hlarge, rfl, rfl, fun h => absurd ((addressable_iff hlarge).mp h) (by decide)⟩,
    ⟨_, hmany, rfl, fun h => absurd ((addressable_iff hmany).mp h) (by decide)⟩⟩

end Config
end LoopTracer

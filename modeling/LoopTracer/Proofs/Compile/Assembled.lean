import LoopTracer.Proofs.Compile.Assembling
import LoopTracer.Proofs.Compile.Layout

/-! Compiled traces.

`Wrought` says what stands of a trace at any time while it is compiled: its pages are drawn from the
free ones, its guards have new numbers, and in a region that is laid out the exit of every guard ends
in a jump of its own to the shared exit code. -/
namespace LoopTracer.Compile

open Machine Trace

/-- Two jumps share no byte. -/
def Apart (b : Backend) (site site' : CodeAddr) : Prop :=
  site.toNat + b.jumpLength ≤ site'.toNat ∨ site'.toNat + b.jumpLength ≤ site.toNat

/-- Writing draws pages, and in a region that is laid out it leaves alone what is written. -/
def Progress (r : CodePages) (l : List Nat) (c c' : Code) : Prop :=
  Preserves (Code.Drawn r l) c c' ∧ (r.Sized → Code.Advances r l c c')

section Progress

variable {r : CodePages} {l : List Nat}

instance : IsPreorder Code (Progress r l) where
  refl c := ⟨id, fun _ => refl_of (Code.Advances r l) c⟩
  trans _ _ _ h h' := ⟨h'.1 ∘ h.1, fun hr => trans_of (Code.Advances r l) (h.2 hr) (h'.2 hr)⟩

theorem progress_moves (r : CodePages) (l : List Nat) (b : Backend) :
    Code.Moves (Progress r l) b where
  write hw hemit :=
    ⟨(Code.drawn_moves r l b).write hw hemit, fun hr => (Code.advances_moves hr l b).write hw hemit⟩
  turn htake :=
    ⟨(Code.drawn_moves r l b).turn htake, fun hr => (Code.advances_moves hr l b).turn htake⟩

end Progress

/-- What stands of a trace whose guards have numbers after `n` and up to `m`. -/
structure Wrought (job : Job) (r : CodePages) (l : List Nat) (n m : Nat)
    (s : Assembler) : Prop where
  drawn : Code.Drawn r l s.alloc.code
  le : n ≤ m
  numbers : ∃ ks : List Nat, s.guards.toList.map (·.id) = ks.map Nat.toUInt32 ∧
    ks.Pairwise (· < ·) ∧
    ∀ k ∈ ks, n < k ∧ k ≤ m
  guards : ∀ g ∈ s.guards, g.source = job.fragment.id ∧ g.target = .bailout
  tidy : r.Laid → Code.Tidy r l s.alloc.code
  settled : r.Laid → ∀ g ∈ s.guards,
    s.alloc.code.Settled job.limits.backend r.bytes .exits g.site r.bailout
  apart : r.Laid → s.guards.toList.Pairwise fun g g' => Apart job.limits.backend g.site g'.site
  loop : r.Laid → ∀ site, s.loopSite = some site →
    ∃ target, s.alloc.code.Settled job.limits.backend r.bytes .main site target

/-- The same for the guards made so far. -/
def Shaped (job : Job) (r : CodePages) (l : List Nat) (n : Nat) (s : Assembler) : Prop :=
  ∃ m ≤ s.guardCount, Wrought job r l n m s

section Wrought

variable {job : Job} {r : CodePages} {l : List Nat} {n m : Nat} {s s' : Assembler}

theorem Wrought.steady (hw : Wrought job r l n m s)
    (hs : Steady (Progress r l) s s') : Wrought job r l n m s' where
  drawn := hs.code.1 hw.drawn
  le := hw.le
  numbers := hs.guards ▸ hw.numbers
  guards := hs.guards ▸ hw.guards
  tidy hr := (hs.code.2 hr.toSized (hw.tidy hr)).1
  settled hr := by
    rw [hs.guards]
    exact fun g hg => (hw.settled hr g hg).later (hs.code.2 hr.toSized (hw.tidy hr)).2
  apart := hs.guards ▸ hw.apart
  loop hr := by
    rw [hs.loopSite]
    exact fun site hsite =>
      let ⟨target, h⟩ := hw.loop hr site hsite
      ⟨target, h.later (hs.code.2 hr.toSized (hw.tidy hr)).2⟩

theorem Shaped.steady (hw : Shaped job r l n s)
    (hs : Steady (Progress r l) s s') : Shaped job r l n s' :=
  let ⟨m, hm, hw⟩ := hw
  ⟨m, hs.count ▸ hm, hw.steady hs⟩

theorem Wrought.push (hw : Wrought job r l n m s) (hs : Steady (Progress r l) s s')
    {g : Guard} {k : Nat}
    (hid : g.id = k.toUInt32) (hk : m < k) (hsource : g.source = job.fragment.id)
    (htarget : g.target = .bailout)
    (hsettled : r.Laid → s'.alloc.code.Settled job.limits.backend r.bytes .exits g.site r.bailout)
    (hopen : r.Laid → ∀ a, g.site.toNat ≤ a → a < g.site.toNat + job.limits.backend.jumpLength →
      s.alloc.code.Open r.bytes a) : Wrought job r l n k { s'
      with guards := s'.guards.push g } := by
  have hw' := hw.steady hs
  have hle := hw.le
  obtain ⟨ks, hids, hsorted, hbound⟩ := hw'.numbers
  refine ⟨hw'.drawn, by omega, ⟨ks ++ [k], ?_, ?_, ?_⟩, ?_, hw'.tidy, fun hr => ?_,
    fun hr => ?_, hw'.loop⟩
  · simp [hids, hid]
  · refine List.pairwise_append.mpr ⟨hsorted, List.pairwise_singleton _ _, fun i hi j hj => ?_⟩
    have := (hbound i hi).2
    rw [List.mem_singleton.mp hj]
    omega
  · intro i hi
    rcases List.mem_append.mp hi with hi | hi
    · have := hbound i hi
      omega
    · rw [List.mem_singleton.mp hi]
      omega
  · intro g' hg'
    rcases Array.mem_push.mp hg' with hg' | rfl
    · exact hw'.guards g' hg'
    · exact ⟨hsource, htarget⟩
  · intro g' hg'
    rcases Array.mem_push.mp hg' with hg' | rfl
    · exact hw'.settled hr g' hg'
    · exact hsettled hr
  · show (s'.guards.push g).toList.Pairwise _
    rw [Array.toList_push]
    refine List.pairwise_append.mpr ⟨hw'.apart hr, List.pairwise_singleton _ _,
      fun g₁ hg₁ g₂ hg₂ => ?_⟩
    rw [List.mem_singleton.mp hg₂]
    -- what was written before is no longer open
    rw [hs.guards] at hg₁
    have hclosed := (hw.settled hr g₁ (Array.mem_toList_iff.mp hg₁)).closed
    have hpositive : 0 < job.limits.backend.jumpLength := by cases job.limits.backend <;> decide
    unfold Apart
    refine Classical.byContradiction fun hmeet => ?_
    rw [not_or] at hmeet
    exact hclosed (max g₁.site.toNat g.site.toNat) (by omega) (by omega)
      (hopen hr _ (by omega) (by omega))

/-- A trace is added to; unless `p` it gets no jump that closes a loop. -/
structure Forward (job : Job) (r : CodePages) (l : List Nat) (n : Nat) (p : Prop)
    (s s' : Assembler) : Prop where
  shaped : Preserves (Shaped job r l n) s s'
  code : Progress r l s.alloc.code s'.alloc.code
  loopSite : p ∨ s'.loopSite = s.loopSite

instance (p : Prop) : IsPreorder Assembler (Forward job r l n p) where
  refl _ := ⟨id, refl_of _ _, .inr rfl⟩
  trans _ _ _ h h' := ⟨h'.shaped ∘ h.shaped, trans_of _ h.code h'.code,
    h.loopSite.elim .inl fun hs => h'.loopSite.imp_right fun hs' => hs'.trans hs⟩

theorem Steady.forward (hs : Steady (Progress r l) s s') (p : Prop) : Forward job r l n p s s' :=
  ⟨fun hw => hw.steady hs, hs.code, .inr hs.loopSite⟩

end Wrought

namespace Assembler

variable {job : Job} {r : CodePages} {l : List Nat} {n m : Nat} {s s' : Assembler}

theorem coding_ok {α : Type} {x : Coding α} {a : α} (h : coding x s = .ok a s') :
    ∃ c, x s.alloc.code = .ok a c ∧ s' = { s with alloc := { s.alloc with code := c } } := by
  unfold coding allocating Allocation.coding at h
  dsimp only at h
  cases hx : x s.alloc.code with
  | ok a' c =>
    rw [hx] at h
    cases h
    exact ⟨c, rfl, rfl⟩
  | error e c =>
    rw [hx] at h
    cases h

/-- The exit code of a guard ends in a jump to the shared exit code, written where nothing was. -/
theorem exitCode_ok (hr : r.Laid) (ht : Code.Tidy r l s.alloc.code) {id : GuardId}
    {locations : List SlotLocation} {start site : CodeAddr}
    (h : exitCode job id locations s = .ok (start, site) s') :
    s'.alloc.code.Settled job.limits.backend r.bytes .exits site r.bailout ∧
      ∀ a, site.toNat ≤ a → a < site.toNat + job.limits.backend.jumpLength →
      s.alloc.code.Open r.bytes a := by
  have hm := progress_moves r l job.limits.backend
  obtain ⟨_, s₁, hcount, h⟩ := bind_eq_ok h
  obtain ⟨_, _, hget, h⟩ := bind_eq_ok h
  cases hget
  obtain ⟨site', s₂, hbranch, h⟩ := bind_eq_ok h
  obtain ⟨_, s₃, hmov, h⟩ := bind_eq_ok h
  obtain ⟨_, s₄, hslots, h⟩ := bind_eq_ok h
  obtain ⟨_, s₅, hpos, h⟩ := bind_eq_ok h
  cases h
  have hs₁ : Steady (Progress r l) s s₁ := (countExitJump_keeps job).ok hcount
  have hs₃ : Steady (Progress r l) s₂ s₃ := (emit_keeps hm _ _).ok hmov
  have hs₄ : Steady (Progress r l) s₃ s₄ :=
    (Keeps.forM (fun i => emit_keeps hm .exits i) _).ok hslots
  have hs₅ : Steady (Progress r l) s₄ s' := (coding_keeps (hm.pos .exits)).ok hpos
  have hrest : Steady (Progress r l) s₂ s' := trans_of _ hs₃ (trans_of _ hs₄ hs₅)
  obtain ⟨ht₁, hl₁⟩ := hs₁.code.2 hr.toSized ht
  obtain ⟨c₂, hcode, rfl⟩ := coding_ok hbranch
  rw [ht₁.drawn.bailout] at hcode
  obtain ⟨ht₂, -, hsettled, hopen⟩ := Code.emitBranch_jump hr ht₁ hcode
  refine ⟨hsettled.later (hrest.code.2 hr.toSized ht₂).2, fun a hlow hhigh => ?_⟩
  exact Classical.not_not.mp fun hclosed => (hl₁.closed a hclosed).1 (hopen a hlow hhigh)

theorem leave_keeps (p : Prop) (exit : Nat) (cond : GuardCond) (reg : Reg)
    (locations : List SlotLocation) :
    Keeps (Forward job r l n p) Calm (leave job exit cond reg locations) := by
  have hm := progress_moves r l job.limits.backend
  intro s
  let s₁ : Assembler := { s with
    exits := s.exits.modify exit fun e : ExitRecord => { e with locations }
    guardCount := s.guardCount + 1 }
  have hsame : ∀ {m}, Wrought job r l n m s → Wrought job r l n m s₁ := fun hw =>
    ⟨hw.drawn, hw.le, hw.numbers, hw.guards, hw.tidy, hw.settled, hw.apart, hw.loop⟩
  have hstop : ∀ s₂, Steady (Progress r l) s₁ s₂ → Forward job r l n p s s₂ := fun s₂ hs =>
    ⟨fun h => h.imp fun m h => ⟨by rw [hs.count]; exact Nat.le_succ_of_le h.1,
      (hsame h.2).steady hs⟩, hs.code,
      .inr hs.loopSite⟩
  have hstart : leave job exit cond reg locations s = (do
      let x ← exitCode job (s.guardCount + 1).toUInt32 locations
      emit job .main (.guard cond reg x.1)
      modify fun s : Assembler => { s with
        guards := s.guards.push
          { id := s₁.guardCount.toUInt32, source := job.fragment.id, target := .bailout,
            site := x.2, exit } }) s₁ := rfl
  unfold KeepsAt
  rw [hstart]
  cases hexit : exitCode job (s.guardCount + 1).toUInt32 locations s₁ with
  | error e s₂ =>
    rw [bind_error hexit]
    obtain ⟨hs, he⟩ := (exitCode_keeps (R := Progress r l) hm _ _).error hexit
    exact ⟨hstop s₂ hs, he⟩
  | ok x s₂ =>
    rw [bind_ok hexit]
    have hs := (exitCode_keeps (R := Progress r l) hm _ _).ok hexit
    cases hemit : emit job .main (.guard cond reg x.1) s₂ with
    | error e s₃ =>
      rw [bind_error hemit]
      obtain ⟨hs', he⟩ := (emit_keeps (R := Progress r l) hm _ _).error hemit
      exact ⟨hstop s₃ (trans_of _ hs hs'), he⟩
    | ok u s₃ =>
      rw [bind_ok hemit]
      have hs' := (emit_keeps (R := Progress r l) hm _ _).ok hemit
      refine ⟨fun h => ?_, trans_of _ hs.code hs'.code, .inr (hs'.loopSite.trans hs.loopSite)⟩
      obtain ⟨m, hle, hw⟩ := h
      have hcount : s₃.guardCount = s.guardCount + 1 := hs'.count.trans hs.count
      refine ⟨s.guardCount + 1, Nat.le_of_eq hcount.symm, ?_⟩
      refine (hsame hw).push (trans_of _ hs hs') rfl (by omega) rfl rfl (fun hr => ?_) fun hr => ?_
      · have ht := (hsame hw).tidy hr
        exact (exitCode_ok hr ht hexit).1.later
          (hs'.code.2 hr.toSized (hs.code.2 hr.toSized ht).1).2
      · exact (exitCode_ok hr ((hsame hw).tidy hr) hexit).2

theorem closing_keeps {p : Prop} (hp : p) : Keeps (Forward job r l n p) Calm (closing job) := by
  have hm := progress_moves r l job.limits.backend
  intro s
  have hget : (get : Assembling Assembler) s = .ok s s := rfl
  cases hbranch : coding
      (Code.emitBranch job.limits.backend .main (.jump s.alloc.code.region.bailout)) s with
  | error e s₁ =>
    have heq : closing job s = .error e s₁ := (bind_ok hget).trans (bind_error hbranch)
    obtain ⟨hs, he⟩ := (coding_keeps (R := Progress r l) (hm.emitBranch _ _)).error hbranch
    exact (keepsAt_error heq).mpr ⟨hs.forward p, he⟩
  | ok site s₁ =>
    have heq : closing job s = .ok () { s₁ with loopSite := some site } :=
      (bind_ok hget).trans (bind_ok hbranch)
    have hs := (coding_keeps (R := Progress r l) (hm.emitBranch _ _)).ok hbranch
    refine (keepsAt_ok heq).mpr ⟨fun ⟨m, hle, hw⟩ => ?_, hs.code, .inl hp⟩
    have hw' := hw.steady hs
    refine ⟨m, hs.count ▸ hle, { hw' with loop := fun hr site' hsite => ?_ }⟩
    cases hsite
    obtain ⟨c, hcode, rfl⟩ := coding_ok hbranch
    exact ⟨_, (Code.emitBranch_jump hr (hw.tidy hr) hcode).2.2.1⟩

end Assembler

/-! ### Closing a loop -/

theorem tame_patch {b : Backend} {mem : Memory} {site target : CodeAddr} {f : Fault}
    (h : b.patch mem site target = .error f) : Tame f := by
  cases b with
  | virtual =>
    unfold Backend.patch Virtual.patch at h
    dsimp only at h
    repeat' split at h
    all_goals cases h
    all_goals rintro _ _ ⟨⟩
  | x64 =>
    have hbranch : ∀ f, X64.branchAt mem site = .error f → Tame f := by
      intro f hf
      unfold X64.branchAt at hf
      repeat' split at hf
      all_goals cases hf
      all_goals rintro _ _ ⟨⟩
    unfold Backend.patch X64.patch at h
    dsimp only at h
    cases hb : X64.branchAt mem site with
    | error f' =>
      rw [hb] at h
      cases h
      exact hbranch _ hb
    | ok x =>
      rw [hb] at h
      change (if mem.size < x.1.toNat + 4 then Except.error Fault.bounds else _) = _ at h
      split at h
      · cases h
        rintro _ _ ⟨⟩
      · cases h

/-- Redirecting the jump that closes a loop. -/
theorem Wrought.patched {job : Job} {r : CodePages} {l : List Nat} {n m : Nat} {s : Assembler}
    (hw : Wrought job r l n m s) {site target : CodeAddr} {mem : Memory}
    (hsite : s.loopSite = some site)
    (hpatch : job.limits.backend.patch s.alloc.code.region.mem site target = .ok mem) :
    Wrought job r l n m { s with alloc := { s.alloc with code := { s.alloc.code with
      region := { s.alloc.code.region with mem } } } } := by
  let c := s.alloc.code
  let c' : Code := { c with region := { c.region with mem } }
  have hchain : ∀ side, c'.chain side = c.chain side := fun side => by cases side <;> rfl
  have hopen : ∀ a, c'.Open r.bytes a ↔ c.Open r.bytes a := fun a => by
    unfold Code.Open
    simp only [hchain]
    exact Iff.rfl
  have hdrawn : Code.Drawn r l c' := hw.drawn.congr rfl fun side => by simp [hchain, c]
  -- in a region that is laid out only the bytes of that jump have changed
  have hbytes : r.Laid → ∃ old h, c.Settled job.limits.backend r.bytes .main site old ∧
      h ∈ (c.chain .main).pages ∧ Jumps job.limits.backend mem site target ∧ mem.Valid ∧
        mem.size = c.region.mem.size ∧
      ∀ a, a / r.bytes ≠ h → mem.get? a = c.region.mem.get? a := by
    intro hr
    have ht := hw.tidy hr
    obtain ⟨old, hold⟩ := hw.loop hr site hsite
    obtain ⟨h, hh, hlow, hhigh⟩ := hold.page
    have hsmall := hr.small
    have hsize := ht.size
    obtain ⟨mem', hpatch', hjumps, hvalid, hsize', hsame⟩ :=
      hold.jumps.patch ht.valid (by omega) target
    rw [hpatch] at hpatch'
    cases hpatch'
    refine ⟨old, h, hold, hh, hjumps, hvalid, hsize', fun a ha => hsame a ?_⟩
    have := Code.div_eq_page (n := r.bytes) (h := h) (a := a)
    omega
  refine ⟨hdrawn, hw.le, hw.numbers, hw.guards, fun hr => ?_, fun hr g hg => ?_, hw.apart,
    fun hr site' hsite' => ?_⟩
  · have ht := hw.tidy hr
    obtain ⟨-, h, -, hh, -, hvalid, hsize, hsame⟩ := hbytes hr
    refine ⟨hdrawn, hsize.trans ht.size, hvalid, fun a ha => ?_, fun side w hside => ?_⟩
    · simp only at ha
      exact (hsame a fun heq => ha .main (heq ▸ hh)).trans (ht.confined a ha)
    · rw [hchain] at hside ⊢
      exact ht.writer side w hside
  · have hg := hw.settled hr g hg
    obtain ⟨-, h, -, hh, -, -, hsize, hsame⟩ := hbytes hr
    refine ⟨?_, hg.jumps.congr hsize fun a hlow hhigh => hsame a fun heq => ?_,
      fun a hlow hhigh => ?_⟩
    · rw [hchain]
      exact hg.page
    · obtain ⟨j, hj, hjlow, hjhigh⟩ := hg.page
      have hdiv : a / r.bytes = j := Code.div_eq_page (by omega) (by omega)
      have := hw.drawn.page_side hh (heq.symm.trans hdiv ▸ hj)
      cases this
    · rw [hopen]
      exact hg.closed a hlow hhigh
  · obtain ⟨old, -, hold, -, hjumps, -, -, -⟩ := hbytes hr
    rw [hsite] at hsite'
    cases hsite'
    refine ⟨target, ?_, hjumps, fun a hlow hhigh => ?_⟩
    · rw [hchain]
      exact hold.page
    · rw [hopen]
      exact hold.closed a hlow hhigh

namespace Assembler

variable {job : Job} {r : CodePages} {l : List Nat} {n m : Nat} {s s' : Assembler}

theorem patch_eq (site target : CodeAddr) (s : Assembler) :
    patch job site target s = match job.limits.backend.patch s.alloc.code.region.mem site target
    with
      | .ok mem => .ok () { s with alloc := { s.alloc with code := { s.alloc.code with
          region := { s.alloc.code.region with mem } } } }
      | .error f => .error (.fault f) s := by
  unfold patch coding allocating Allocation.coding
  dsimp only
  cases job.limits.backend.patch s.alloc.code.region.mem site target <;> rfl

theorem patch_keeps {site : CodeAddr} (hsite : s.loopSite = some site) (target : CodeAddr) :
    KeepsAt (Preserves (Shaped job r l n)) Calm (patch job site target) s := by
  unfold KeepsAt
  rw [patch_eq]
  cases hpatch : job.limits.backend.patch s.alloc.code.region.mem site target with
  | ok mem => exact fun ⟨m, hle, hw⟩ => ⟨m, hle, hw.patched hsite hpatch⟩
  | error f => exact ⟨id, tame_patch hpatch⟩

section

variable (hb : job.set.backend = job.limits.backend)
include hb

theorem generateFrom_forward (k : Nat) (p : Prop)
    (hp : (∃ i ∈ job.set.buffer.insts, i.op = .loop) → p) :
    Keeps (Forward job r l n p) Calm (generateFrom job k) :=
  generateFrom_keeps hb (progress_moves r l job.limits.backend) (fun _ _ hs => hs.forward p) k
    (fun k i _ _ => guard_keeps hb (progress_moves r l job.limits.backend)
      (fun _ _ hs => hs.forward p) k i
      fun reg locations _ _ => leave_keeps p _ _ reg locations)
    fun i hi hop => closing_keeps (hp ⟨i, hi, hop⟩)

/-- However compiling ends, the pages are accounted for. -/
theorem wholeTrace_shaped : Keeps (Preserves (Shaped job r l n)) Calm (wholeTrace job) :=
  wholeTrace_keeps (progress_moves r l job.limits.backend) (fun _ _ hs hw => hw.steady hs)
    ((generateFrom_forward hb _ True fun _ => trivial).mono (fun _ _ h => h.shaped) fun _ he => he)
    fun _ _ target hsite => patch_keeps hsite target

omit hb in
/-- A compiled trace is what was written; without a jump that closes a loop nothing is redirected. -/
theorem wholeTrace_ok {a : Assembly} (h : wholeTrace job s = .ok a s') :
    (∃ s₁, generateFrom job job.set.buffer.size s = .ok () s₁ ∧
      (s₁.loopSite = none → Steady (Progress r l) s₁ s')) ∧
    a.mainPages = s'.alloc.code.main.pages.toList ∧ a.exitPages = s'.alloc.code.exits.pages.toList ∧
    a.mainCode = s'.alloc.code.main.finish ∧ a.guards = s'.guards.toList.reverse := by
  have hm := progress_moves r l job.limits.backend
  unfold wholeTrace at h
  obtain ⟨_, s₁, hgen, h⟩ := bind_eq_ok h
  obtain ⟨_, s₂, hdone, h⟩ := bind_eq_ok h
  obtain ⟨loopTop, s₃, hpos, h⟩ := bind_eq_ok h
  obtain ⟨_, _, hget, h⟩ := bind_eq_ok h
  cases hget
  have hs : Steady (Progress r l) s₁ s₃ :=
    trans_of _ ((allocating_keeps Allocation.checkDone_keeps).ok hdone)
    ((coding_keeps (hm.pos .main)).ok hpos)
  extract_lets rest entered at h
  have hrest : ∀ entry s₄, rest entry s₄ = .ok a s' →
    s' = s₄ ∧ a.mainPages = s'.alloc.code.main.pages.toList ∧
      a.exitPages = s'.alloc.code.exits.pages.toList ∧ a.mainCode = s'.alloc.code.main.finish ∧
      a.guards = s'.guards.toList.reverse := by
    intro entry s₄ h
    cases h
    exact ⟨rfl, rfl, rfl, rfl, rfl⟩
  have hentered : ∀ u s₄, entered u s₄ = .ok a s' → Steady (Progress r l) s₄ s' ∧
      a.mainPages = s'.alloc.code.main.pages.toList ∧
        a.exitPages = s'.alloc.code.exits.pages.toList ∧
      a.mainCode = s'.alloc.code.main.finish ∧ a.guards = s'.guards.toList.reverse := by
    intro u s₄ h
    unfold entered at h
    split at h
    · obtain ⟨rfl, hfields⟩ := hrest _ _ h
      exact ⟨refl_of _ _, hfields⟩
    · obtain ⟨_, s₅, hemit, h⟩ := bind_eq_ok h
      obtain ⟨entry, s₆, hpos, h⟩ := bind_eq_ok h
      obtain ⟨rfl, hfields⟩ := hrest _ _ h
      exact ⟨trans_of _ ((emit_keeps hm _ _).ok hemit) ((coding_keeps (hm.pos .main)).ok hpos),
        hfields⟩
  cases hsite : s₃.loopSite with
  | some site =>
    rw [hsite] at h
    obtain ⟨u, s₄, -, h⟩ := bind_eq_ok h
    refine ⟨⟨s₁, hgen, fun hnone => ?_⟩, (hentered u s₄ h).2⟩
    rw [hs.loopSite, hnone] at hsite
    cases hsite
  | none =>
    rw [hsite] at h
    obtain ⟨hsteady, hfields⟩ := hentered () s₃ h
    exact ⟨⟨s₁, hgen, fun _ => trans_of _ hs hsteady⟩, hfields⟩

end

theorem coding_error {α : Type} {x : Coding α} {e : CompileStop} (h : coding x s = .error e s') :
    ∃ c, x s.alloc.code = .error e c := by
  unfold coding allocating Allocation.coding at h
  dsimp only at h
  cases hx : x s.alloc.code with
  | ok a c =>
    rw [hx] at h
    cases h
  | error e' c =>
    rw [hx] at h
    cases h
    exact ⟨c, rfl⟩

theorem checkDone_error {e : CompileError} :
    allocating Allocation.checkDone s ≠ .error (.error e) s' := by
  intro h
  unfold allocating at h
  dsimp only at h
  cases hx : Allocation.checkDone s.alloc with
  | ok a alloc =>
    rw [hx] at h
    cases h
  | error e' alloc =>
    rw [hx] at h
    cases h
    unfold Allocation.checkDone at hx
    rw [bind_ok (show (get : Allocating Allocation) s.alloc = .ok s.alloc s.alloc from rfl)] at hx
    split at hx
    · cases hi : s.alloc.regs.index.findIdx? (·.isSome) <;> rw [hi] at hx <;> cases hx
    · cases hx

/-- Compiling that is given up for any reason but that there is no page left stops while the trace
is being written. -/
theorem wholeTrace_error (hb : job.set.backend = job.limits.backend) {e : CompileError}
    (h : wholeTrace job s = .error (.error e) s') (he : e.kind ≠ .outOfSpace) :
    Progress r l s.alloc.code s'.alloc.code := by
  unfold wholeTrace at h
  rcases bind_eq_error h with hgen | ⟨_, s₁, -, h⟩
  · exact ((generateFrom_forward (n := 0) hb _ True fun _ => trivial).error hgen).1.code
  rcases bind_eq_error h with hdone | ⟨_, s₂, -, h⟩
  · exact absurd hdone checkDone_error
  rcases bind_eq_error h with hpos | ⟨loopTop, s₃, -, h⟩
  · obtain ⟨c, hpos⟩ := coding_error hpos
    exact absurd (Code.pos_error hpos) he
  rcases bind_eq_error h with hget | ⟨_, _, hget, h⟩
  · cases hget
  cases hget
  extract_lets rest entered at h
  have hentered : ∀ u s₄, entered u s₄ ≠ .error (.error e) s' := by
    intro u s₄ h
    unfold entered at h
    split at h
    · cases h
    · rcases bind_eq_error h with hemit | ⟨_, s₅, -, h⟩
      · obtain ⟨c, hemit⟩ := coding_error hemit
        exact he (Code.emit_error hemit)
      rcases bind_eq_error h with hpos | ⟨_, s₆, -, h⟩
      · obtain ⟨c, hpos⟩ := coding_error hpos
        exact he (Code.pos_error hpos)
      · cases h
  cases hsite : s₃.loopSite with
  | some site =>
    rw [hsite] at h
    rcases bind_eq_error h with hpatch | ⟨_, s₄, -, h⟩
    · rw [patch_eq] at hpatch
      split at hpatch <;> cases hpatch
    · exact absurd h (hentered () _)
  | none =>
    rw [hsite] at h
    exact absurd h (hentered () _)

instance : IsPreorder Code Eq where
  refl _ := rfl
  trans _ _ _ := Eq.trans

/-- The jump at the end of a trace that goes on in another fragment. -/
theorem generate_jumpTree {R : Code → Code → Prop} [IsPreorder Code R] {k : Nat} {i : Inst}
    (hop : i.op = .jumpTree) (h : generate job k i s = .ok () s') :
    ∃ s₁, Steady R s s₁ ∧ emit job .main (.jump job.targetTop) s₁ = .ok () s' := by
  have hresult : TraceOp.jumpTree.hasResult = false := rfl
  have hflag : TraceOp.jumpTree.setsOverflow = false := rfl
  unfold generate at h
  obtain ⟨_, _, hget, h⟩ := bind_eq_ok h
  cases hget
  obtain ⟨_, s₁, hlive, h⟩ := bind_eq_ok h
  simp only [hop, hresult, hflag, Bool.false_and, Bool.false_eq_true, if_false] at h
  obtain ⟨_, _, hget, h⟩ := bind_eq_ok h
  cases hget
  obtain ⟨_, s₂, hcount, h⟩ := bind_eq_ok h
  exact ⟨s₂, trans_of _ ((liftFault_keeps fun _ => tame_isLive).ok hlive)
    ((countExitJump_keeps job).ok hcount), h⟩

/-- The code of a trace that goes on in another fragment ends in a jump to the top of that one. -/
theorem wholeTrace_final (hb : job.set.backend = job.limits.backend) (hr : r.Laid)
    (hs : Shaped job r l n s)
    (hwriter : (s.alloc.code.chain .main).writer = none)
    (hranges : (s.alloc.code.chain .main).ranges = #[])
    (hsite : s.loopSite = none) {k : Nat} {i : Inst} (hsize : job.set.buffer.size = k + 1)
    (hlast : job.set.buffer.insts[k]? = some i) (hop : i.op = .jumpTree)
    (hloops : ∀ i ∈ job.set.buffer.insts, i.op ≠ .loop) {a : Assembly}
    (h : wholeTrace job s = .ok a s') :
    ∃ range, a.mainCode.head? = some range ∧ s'.alloc.code.Settled job.limits.backend r.bytes .main
      (job.limits.backend.branchSite range.stop (.jump job.targetTop)) job.targetTop := by
  obtain ⟨⟨s₁, hgen, hsteady⟩, -, -, hcode, -⟩ := wholeTrace_ok (r := r) (l := l) h
  have hm := progress_moves r l job.limits.backend
  rw [hsize] at hgen
  -- the jump is the first thing that is written
  obtain ⟨_, s₂, hupdate, hgen⟩ := bind_eq_ok hgen
  rw [hlast] at hgen
  obtain ⟨_, s₃, hfirst, hgen⟩ := bind_eq_ok hgen
  have hs₂ : Steady Eq s s₂ := (allocating_keeps (Allocation.update_keeps _)).ok hupdate
  obtain ⟨s₂', hs₂', hemit⟩ := generate_jumpTree (R := Eq) hop hfirst
  have hstart : Steady Eq s s₂' := trans_of _ hs₂ hs₂'
  have hsame : s₂'.alloc.code = s.alloc.code := hstart.code.symm
  obtain ⟨c₃, hjump, rfl⟩ := coding_ok hemit
  rw [hsame] at hjump
  obtain ⟨m, -, hw⟩ := hs
  obtain ⟨ht₃, -⟩ := ((hm.emit .main _).ok hjump).2 hr.toSized (hw.tidy hr)
  obtain ⟨stop, htops, hsettled⟩ := Code.emit_first hr (hw.tidy hr) hwriter hranges hjump
  -- nothing that follows touches it
  have hforward := (generateFrom_forward (r := r) (l := l) (n := n) hb k False
    fun ⟨i, hi, hi'⟩ => hloops i hi hi').ok hgen
  have hnone : s₁.loopSite = none :=
    (hforward.loopSite.resolve_left id).trans (hstart.loopSite.trans hsite)
  obtain ⟨ht', hlater⟩ :=
    trans_of (Code.Advances r l) (hforward.code.2 hr.toSized)
      ((hsteady hnone).code.2 hr.toSized) ht₃
  obtain ⟨range, hhead, hstop⟩ := Code.finish_head hr ht' (hlater.tops _ _ htops)
  exact ⟨range, hcode ▸ hhead, hstop ▸ hsettled.later hlater⟩

end Assembler

/-! ### Compiling a fragment -/

/-- What compiling a fragment with a trace reads. -/
def jobOf (limits : Limits) (helpers : HelperTable) (f : Fragment) (target : Option Fragment)
    (buffer : Buffer) : Job where
  limits := limits
  helpers := helpers
  fragment := f
  targetTop := target.elim 0 (·.loopTop)
  set :=
    { backend := limits.backend
      target := limits.target
      buffer
      uses := buffer.uses
      maxSlots := limits.maxSpillSlots }
  exitIndex := exitPlaces buffer f.exitBase

/-- What compiling starts with. -/
def startOf (limits : Limits) (buffer : Buffer) (shop : Workshop) : Assembler where
  alloc :=
    { regs := Registers.create limits.maxReservations.toNat buffer.size limits.target.allocatable
      code := { region := shop.region } }
  guardCount := shop.guardCount
  exits := shop.exits

/-- What is handed on when compiling has ended. -/
def handBack : EStateM.Result CompileStop Assembler Assembly →
    EStateM.Result AssembleError Workshop Assembly
  | .ok a s => .ok a { region := s.alloc.code.region, guardCount := s.guardCount, exits := s.exits }
  | .error (.fault e) s => .error (.fault e)
      { region := s.alloc.code.region, guardCount := s.guardCount, exits := s.exits }
  | .error (.error e) s => .error (s.alloc.code.abandon.2.elim (.compile e) .fault)
      { region := s.alloc.code.abandon.1, guardCount := s.guardCount, exits := s.exits }

/-- A fragment is turned down before anything is written, or its trace is compiled. -/
theorem assemble_eq (limits : Limits) (helpers : HelperTable) (f : Fragment)
    (target : Option Fragment)
    (shop : Workshop) :
    (∃ e, (∀ fault, e = .fault fault → Tame fault) ∧
      assemble limits helpers f target shop = .error e shop) ∨
    ∃ buffer, f.trace = some buffer ∧ buffer.validate = .ok () ∧
    assemble limits helpers f target shop =
      handBack (Assembler.wholeTrace (jobOf limits helpers f target buffer)
        (startOf limits buffer shop)) := by
  unfold assemble
  cases htrace : f.trace with
  | none => exact .inl ⟨.noTrace f.render, (fun _ h => by cases h), rfl⟩
  | some buffer =>
    dsimp -zeta only
    extract_lets set targetTop exitIndex job regs compile third second first
    have hcompile : compile () shop =
        handBack (Assembler.wholeTrace (jobOf limits helpers f target buffer)
            (startOf limits buffer shop)) := by
      unfold compile handBack
      dsimp only
      rfl
    split
    · exact .inl ⟨.noTrace f.render, (fun _ h => by cases h), rfl⟩
    cases hvalid : buffer.validate with
    | error e =>
      refine .inl ⟨.invalid e, (fun _ h => by cases h), ?_⟩
      simp only [first, hvalid]
      rfl
    | ok u =>
      have hfirst : first () = second () := by
        simp only [first, hvalid]
      rw [hfirst]
      unfold second
      split
      · exact .inl ⟨.notCompiled f.render, (fun _ h => by cases h), rfl⟩
      unfold third
      split
      · refine .inl ⟨.fault .bounds, fun fault h => ?_, rfl⟩
        cases h
        rintro _ _ ⟨⟩
      · exact .inr ⟨buffer, rfl, hvalid, hcompile⟩

theorem ends_any {buffer : Buffer} {p : Inst → Bool} (h : buffer.insts.back?.any p = true) :
    ∃ k i, buffer.size = k + 1 ∧ buffer.insts[k]? = some i ∧ p i = true := by
  rw [Array.back?_eq_getElem?] at h
  cases hi : buffer.insts[buffer.insts.size - 1]? with
  | none =>
    rw [hi] at h
    cases h
  | some i =>
    rw [hi] at h
    have hlt := (Array.getElem?_eq_some_iff.mp hi).1
    refine ⟨buffer.insts.size - 1, i, ?_, hi, h⟩
    unfold Buffer.size
    omega

theorem ends_jumpTree {buffer : Buffer} (h : buffer.insts.back?.any (·.op == .jumpTree) = true) :
    ∃ k i, buffer.size = k + 1 ∧ buffer.insts[k]? = some i ∧ i.op = .jumpTree := by
  obtain ⟨k, i, hsize, hi, hop⟩ := ends_any h
  exact ⟨k, i, hsize, hi, beq_iff_eq.mp hop⟩

/-- Nothing has changed outside of some pages. -/
structure CodePages.Beside (l : List Nat) (r r' : CodePages) : Prop where
  others : ∀ h, h ∉ l → r'.pages[h]? = r.pages[h]?
  size : r'.pages.size = r.pages.size
  pageSize : r'.pageSize = r.pageSize
  bailout : r'.bailout = r.bailout
  last : r'.last = r.last
  memory : r.Laid → r'.mem.size = r.mem.size ∧ r'.mem.Valid ∧
    ∀ a, a / r.bytes ∉ l → r'.mem.get? a = r.mem.get? a

theorem CodePages.Beside.refl (l : List Nat) (r : CodePages) : Beside l r r :=
  ⟨fun _ _ => rfl, rfl, rfl, rfl, rfl, fun hr => ⟨rfl, hr.valid, fun _ _ => rfl⟩⟩

theorem CodePages.Beside.laid {l : List Nat} {r r' : CodePages} (h : Beside l r r')
    (hr : r.Laid) : r'.Laid where
  positive := h.pageSize ▸ hr.positive
  size := by
    rw [(h.memory hr).1, h.size, h.pageSize]
    exact hr.size
  whole := (h.memory hr).1 ▸ hr.whole
  valid := (h.memory hr).2.1
  small := (h.memory hr).1 ▸ hr.small

/-- A jump to `target` lies at `site` on one of some pages. -/
def Hosted (b : Backend) (r : CodePages) (pages : List Nat) (site target : CodeAddr) : Prop :=
  (∃ h ∈ pages, h * r.bytes ≤ site.toNat ∧ site.toNat + b.jumpLength ≤ (h + 1) * r.bytes) ∧
    Jumps b r.mem site target

/-- What a compiled fragment consists of: pages that were free and guards with new numbers; in a
region that is laid out every exit ends in a jump of its own to the shared exit code. -/
structure Built (b : Backend) (f : Fragment) (target : Option Fragment) (l : List Nat)
    (shop shop' : Workshop)
    (a : Assembly) : Prop where
  beside : CodePages.Beside l shop.region shop'.region
  frees : ∃ l', shop'.region.Frees l' ∧ (a.mainPages ++ a.exitPages ++ l').Perm l
  main : ∀ h ∈ a.mainPages, shop'.region.pages[h]? = some { kind := .main }
  exit : ∀ h ∈ a.exitPages, shop'.region.pages[h]? = some { kind := .exit }
  count : shop.guardCount ≤ shop'.guardCount
  numbers : ∃ ks : List Nat, a.guards.map (·.id) = ks.map Nat.toUInt32 ∧ ks.Nodup ∧
    ∀ k ∈ ks, shop.guardCount < k ∧ k ≤ shop'.guardCount
  guards : ∀ g ∈ a.guards, g.source = f.id ∧ g.target = .bailout
  sites : shop.region.Laid → ∀ g ∈ a.guards,
    Hosted b shop'.region a.exitPages g.site shop.region.bailout
  apart : shop.region.Laid → a.guards.Pairwise fun g g' => Apart b g.site g'.site
  final : shop.region.Laid → ∀ buffer, f.trace = some buffer →
    buffer.insts.back?.any (·.op == .jumpTree) = true →
    ∃ range, a.mainCode.head? = some range ∧
      Hosted b shop'.region a.mainPages
        (b.branchSite range.stop (.jump (target.elim 0 (·.loopTop))))
        (target.elim 0 (·.loopTop))

/-- The number of a new guard is greater than all that were given out. -/
theorem Built.number {b : Backend} {f : Fragment} {target : Option Fragment} {l : List Nat}
    {shop shop' : Workshop}
    {a : Assembly} (hb : Built b f target l shop shop' a) {g : Guard} (hg : g ∈ a.guards) :
    ∃ k, shop.guardCount < k ∧ k ≤ shop'.guardCount ∧ g.id = k.toUInt32 := by
  obtain ⟨ks, hids, -, hbound⟩ := hb.numbers
  have hmem := List.mem_map_of_mem (f := (·.id)) hg
  rw [hids] at hmem
  obtain ⟨k, hk, hid⟩ := List.mem_map.mp hmem
  exact ⟨k, (hbound k hk).1, (hbound k hk).2, hid.symm⟩

section assemble

variable {limits : Limits} {helpers : HelperTable} {f : Fragment}
  {target : Option Fragment} {buffer : Buffer}
  {shop shop' : Workshop} {l : List Nat}

theorem shaped_start (hf : shop.region.Frees l) (job : Job) :
    Shaped job shop.region l shop.guardCount (startOf limits buffer shop) := by
  have hdrawn := Code.drawn_start hf
  refine ⟨shop.guardCount, Nat.le_refl _, hdrawn, Nat.le_refl _, ⟨[], rfl, .nil, nofun⟩, nofun,
    fun hr => ?_, nofun,
    fun _ => .nil, nofun⟩
  exact ⟨hdrawn, rfl, hr.valid, fun _ _ => rfl, fun side w hw => by cases side <;> cases hw⟩

theorem Wrought.beside {job : Job} {r : CodePages} {n m : Nat} {s : Assembler}
    (hw : Wrought job r l n m s) :
    CodePages.Beside l r s.alloc.code.region where
  others := hw.drawn.others
  size := hw.drawn.size
  pageSize := hw.drawn.pageSize
  bailout := hw.drawn.bailout
  last := hw.drawn.last
  memory hr := ⟨(hw.tidy hr).size, (hw.tidy hr).valid, (hw.tidy hr).outside⟩

theorem Code.Settled.hosted {b : Backend} {r : CodePages} {c : Code} {side : Side}
    {site target : CodeAddr}
    (h : c.Settled b r.bytes side site target) (hsize : c.region.pageSize = r.pageSize) :
    Hosted b c.region (c.chain side).pages.toList site target := by
  obtain ⟨j, hj, hin⟩ := h.page
  refine ⟨⟨j, Array.mem_toList_iff.mpr hj, ?_⟩, h.jumps⟩
  unfold CodePages.bytes at hin ⊢
  rwa [hsize]

/-- A fragment that was compiled. -/
theorem assemble_ok (hf : shop.region.Frees l) {a : Assembly}
    (h : assemble limits helpers f target shop = .ok a shop') :
    Built limits.backend f target l shop shop' a := by
  rcases assemble_eq limits helpers f target shop with ⟨e, -, heq⟩ | ⟨buffer, htrace, hvalid, heq⟩
  · rw [heq] at h
    cases h
  rw [heq] at h
  let job := jobOf limits helpers f target buffer
  cases hwhole : Assembler.wholeTrace job (startOf limits buffer shop) with
  | error e s =>
    rw [hwhole] at h
    cases e <;> cases h
  | ok a' s =>
    rw [hwhole] at h
    cases h
    have hb : job.set.backend = job.limits.backend := rfl
    have hstart : Shaped job shop.region l shop.guardCount (startOf limits buffer shop) :=
      shaped_start hf job
    obtain ⟨m, hm, hw⟩ := (Assembler.wholeTrace_shaped hb).ok hwhole hstart
    obtain ⟨-, hmain, hexit, -, hguards⟩ :=
      Assembler.wholeTrace_ok (r := shop.region) (l := l) hwhole
    obtain ⟨l', hfrees, hperm⟩ := hw.drawn.frees
    obtain ⟨ks, hids, hsorted, hbound⟩ := hw.numbers
    refine ⟨hw.beside, ⟨l', hfrees, by rw [hmain, hexit]; exact hperm⟩, ?_, ?_,
      Nat.le_trans hw.le hm, ?_, ?_,
      fun hr g hg => ?_, fun hr => ?_, fun hr buffer' htrace' hlast => ?_⟩
    · intro j hj
      rw [hmain] at hj
      exact hw.drawn.used .main j (Array.mem_toList_iff.mp hj)
    · intro j hj
      rw [hexit] at hj
      exact hw.drawn.used .exits j (Array.mem_toList_iff.mp hj)
    · refine ⟨ks.reverse, ?_, ?_, fun k hk => ?_⟩
      · rw [hguards, List.map_reverse, hids, List.map_reverse]
      · exact List.pairwise_reverse.mpr (hsorted.imp Nat.ne_of_gt)
      · have := hbound k (List.mem_reverse.mp hk)
        exact ⟨this.1, Nat.le_trans this.2 hm⟩
    · intro g hg
      rw [hguards, List.mem_reverse] at hg
      exact hw.guards g (Array.mem_toList_iff.mp hg)
    · rw [hguards, List.mem_reverse] at hg
      rw [hexit]
      exact (hw.settled hr g (Array.mem_toList_iff.mp hg)).hosted hw.drawn.pageSize
    · rw [hguards, List.pairwise_reverse]
      exact (hw.apart hr).imp fun h => h.symm
    · rw [htrace] at htrace'
      cases htrace'
      obtain ⟨k, i, hk, hi, hop⟩ := ends_jumpTree hlast
      have hloops : ∀ j ∈ buffer.insts, j.op ≠ .loop := by
        intro j hj hloop
        obtain ⟨k', hk'⟩ := Array.mem_iff_getElem?.mp hj
        have hlast' := Buffer.terminal_last hvalid hk' (by rw [hloop]; rfl)
        have heq : k' = k := by omega
        rw [heq, hi] at hk'
        cases hk'
        rw [hop] at hloop
        cases hloop
      obtain ⟨range, hhead, hsettled⟩ :=
        Assembler.wholeTrace_final hb hr hstart rfl rfl rfl hk hi hop hloops hwhole
      refine ⟨range, hhead, ?_⟩
      rw [hmain]
      exact hsettled.hosted hw.drawn.pageSize

/-- A fragment that could not be compiled leaves the region as it was. -/
theorem assemble_error (hf : shop.region.Frees l) {e : AssembleError}
    (h : assemble limits helpers f target shop = .error e shop') :
    (∃ fault, e = .fault fault ∧ Tame fault) ∨ (∀ fault, e ≠ .fault fault) ∧
      CodePages.Beside l shop.region shop'.region ∧ (∃ l', shop'.region.Frees l' ∧ l'.Perm l) ∧
        shop.guardCount ≤ shop'.guardCount := by
  rcases assemble_eq limits helpers f target shop with ⟨e', htame, heq⟩ | ⟨buffer, -, -, heq⟩
  · rw [heq] at h
    cases h
    cases e with
    | fault fault => exact .inl ⟨fault, rfl, htame fault rfl⟩
    | _ => exact .inr ⟨nofun, .refl l shop.region, ⟨l, hf, .refl l⟩, Nat.le_refl _⟩
  rw [heq] at h
  let job := jobOf limits helpers f target buffer
  have hb : job.set.backend = job.limits.backend := rfl
  have hkeeps := Assembler.wholeTrace_shaped (r := shop.region) (l := l) (n := shop.guardCount) hb
  cases hwhole : Assembler.wholeTrace job (startOf limits buffer shop) with
  | ok a s =>
    rw [hwhole] at h
    cases h
  | error e' s =>
    rw [hwhole] at h
    obtain ⟨hshaped, hcalm⟩ := hkeeps.error hwhole
    cases e' with
    | fault fault =>
      cases h
      exact .inl ⟨fault, rfl, hcalm⟩
    | error e' =>
      obtain ⟨m, hm, hw⟩ := hshaped (shaped_start hf job)
      obtain ⟨region, l', habandon, hf', hperm, halike, hothers⟩ := hw.drawn.abandon hf.nodup
      simp only [handBack, habandon] at h
      cases h
      have hbeside := hw.beside
      refine .inr ⟨nofun,
        ⟨hothers, halike.size.trans hbeside.size, halike.pageSize.trans hbeside.pageSize,
        halike.bailout.trans hbeside.bailout, halike.last.trans hbeside.last, fun hr => ?_⟩,
        ⟨l', hf', hperm⟩, Nat.le_trans hw.le hm⟩
      dsimp only
      rw [halike.mem]
      exact hbeside.memory hr

/-- Unless there was no page left, a fragment that could not be compiled has not touched the bytes
of pages that were in use. -/
theorem assemble_spares (hf : shop.region.Frees l) (hr : shop.region.Sized) {e : AssembleError}
    (h : assemble limits helpers f target shop = .error e shop')
    (hfault : ∀ fault, e ≠ .fault fault)
    (hspace : ∀ e', e = .compile e' → e'.kind ≠ .outOfSpace) (a : Nat)
    (ha : a / shop.region.bytes ∉ l) :
    shop'.region.mem.get? a = shop.region.mem.get? a := by
  rcases assemble_eq limits helpers f target shop with ⟨e', -, heq⟩ | ⟨buffer, -, -, heq⟩
  · rw [heq] at h
    cases h
    rfl
  rw [heq] at h
  let job := jobOf limits helpers f target buffer
  have hb : job.set.backend = job.limits.backend := rfl
  cases hwhole : Assembler.wholeTrace job (startOf limits buffer shop) with
  | ok a s =>
    rw [hwhole] at h
    cases h
  | error e' s =>
    rw [hwhole] at h
    cases e' with
    | fault fault =>
      cases h
      exact absurd rfl (hfault fault)
    | error e' =>
      have hdrawn := Code.drawn_start hf
      have htidy : Code.Tidy shop.region l (startOf limits buffer shop).alloc.code :=
        ⟨hdrawn, rfl, hr.valid, fun _ _ => rfl, fun side w hw => by cases side <;> cases hw⟩
      -- every error that is handed back is the one that compiling ended with
      obtain ⟨m, hm, hw⟩ :=
        ((Assembler.wholeTrace_shaped (n := shop.guardCount) hb).error hwhole).1
          (shaped_start hf job)
      obtain ⟨region, l', habandon, -, -, halike, -⟩ := hw.drawn.abandon hf.nodup
      simp only [handBack, habandon] at h
      cases h
      have hprogress :=
        Assembler.wholeTrace_error (r := shop.region) (l := l) hb hwhole (hspace e' rfl)
      obtain ⟨htidy', -⟩ := hprogress.2 hr htidy
      show region.mem.get? a = _
      rw [halike.mem]
      exact htidy'.outside a ha

end assemble

end LoopTracer.Compile

import LoopTracer.Proofs.Compile.Assembled
import LoopTracer.Proofs.Compile.Completion

/-! What comes of compiling a fragment.

A fragment whose trace has all that it needs is compiled, or a limit stops that (`assemble_ends`).
What is compiled lies on pages that were taken for it, and no other page was written to
(`assemble_confined`). -/
namespace LoopTracer.Compile

open Machine Trace

namespace Assembler

variable {job : Job} {r : CodePages} {l : List Nat} {m : Nat} {s : Assembler}

/-- The jump that closes a loop can be redirected. -/
theorem patch_succeeds (hr : r.Laid) (hs : Shaped job r l m s) {site : CodeAddr}
    (hsite : s.loopSite = some site)
    (target : CodeAddr) : ∃ s', patch job site target s = .ok () s' ∧ Shaped job r l m s' := by
  obtain ⟨k, hk, hw⟩ := hs
  obtain ⟨old, hold⟩ := hw.loop hr site hsite
  obtain ⟨j, hj, hlow, hhigh⟩ := hold.page
  have hsmall := hr.small
  have hsize := (hw.tidy hr).size
  obtain ⟨mem, hpatch, -⟩ := hold.jumps.patch (hw.tidy hr).valid (by omega) target
  have hpatched := hw.patched hsite hpatch
  refine ⟨_, ?_, ⟨k, ?_, hpatched⟩⟩
  · rw [patch_eq, hpatch]
  · exact hk

/-- The code of a whole trace is written, or a limit stops that. -/
theorem wholeTrace_ends (hjob : job.Fit r) (hhelpers : job.helpers = .standard)
    (hoffers : ∀ (k : Nat) i, job.set.buffer.insts[k]? = some i → job.Offers k i)
    (h : Orderly job r l job.set.buffer.size s.alloc) (hs : Shaped job r l m s) :
    job.Ends r (wholeTrace job) s fun _ _ => True := by
  have hm := progress_moves r l job.limits.backend
  have htidy : ∀ {s : Assembler}, Shaped job r l m s → Code.Tidy r l s.alloc.code :=
    fun ⟨_, _, hw⟩ => hw.tidy hjob.laid
  unfold wholeTrace
  extract_lets b
  refine ((generateFrom_orderly hjob hoffers hhelpers (Nat.le_refl _) h).keeping
    (generateFrom_forward (r := r) (l := l) (n := m) hjob.backend _ True fun _ => trivial)).bind
      fun _ s₁ ⟨h₁, hforward⟩ => ?_
  have hs₁ := hforward.shaped hs
  refine ((allocating_ends (Allocation.checkDone_orderly h₁)).keeping
    (allocating_keeps (R := Progress r l) Allocation.checkDone_keeps)).bind
      fun _ s₂ ⟨_, hsteady⟩ => ?_
  have hs₂ := hs₁.steady hsteady
  refine ((allocating_ends
    (Allocation.coding_ends (Code.pos_room hjob.laid hjob.page (htidy hs₂)))).keeping
    (coding_keeps (hm.pos .main))).bind fun loopTop s₃ ⟨_, hsteady⟩ => ?_
  have hs₃ := hs₂.steady hsteady
  refine .get ?_
  extract_lets rest entered
  have hentered : ∀ s₄ : Assembler, Shaped job r l m s₄ →
      job.Ends r (entered ()) s₄ fun _ _ => True := by
    intro s₄ hs₄
    unfold entered
    split
    · exact .pure_bind (.get (.pure trivial))
    · refine (allocating_ends
        (Allocation.coding_ends (Code.emit_room hjob.laid hjob.page (htidy hs₄)
        (i := .prologue job.limits.maxSpillSlots) trivial))).bind fun _ s₅ ⟨_, ht₅⟩ => ?_
      exact (allocating_ends (Allocation.coding_ends (Code.pos_room hjob.laid hjob.page ht₅))).bind
          fun _ _ _ =>
        .get (.pure trivial)
  split
  · next site hsite =>
    obtain ⟨s₄, hpatch, hs₄⟩ := patch_succeeds hjob.laid hs₃ hsite loopTop
    exact .bind (Q := fun _ s => s = s₄) ((ensures_ok hpatch).mpr rfl) fun _ s heq =>
      heq ▸ hentered s₄ hs₄
  · exact hentered s₃ hs₃

end Assembler

section assemble

variable {limits : Limits} {helpers : HelperTable} {f : Fragment}
  {target : Option Fragment} {buffer : Buffer}
  {shop shop' : Workshop} {l : List Nat}

/-- A fragment whose trace can be compiled is not turned down. -/
theorem assemble_runs (htrace : f.trace = some buffer) (hvalid : buffer.validate = .ok ())
    (htarget : buffer.insts.back?.any (·.op == .jumpTree) = true → target.any (·.executable) = true)
    (hcan : Registers.canHave limits.maxReservations limits.maxSpillSlots = true)
    (shop : Workshop) :
    assemble limits helpers f target shop =
      handBack (Assembler.wholeTrace (jobOf limits helpers f target buffer)
        (startOf limits buffer shop)) := by
  have hsealed : buffer.isSealed = true := by
    unfold Buffer.validate at hvalid
    split at hvalid
    · cases hvalid
    · next h => simpa using h
  unfold assemble
  rw [htrace]
  dsimp -zeta only
  extract_lets set targetTop exitIndex job regs compile third second first
  have hfirst : first () = second () := by simp only [first, hvalid]
  have hsecond : second () = third () := by
    unfold second
    rw [if_neg]
    rw [Bool.and_eq_true, Bool.not_eq_true', not_and, Bool.not_eq_false]
    exact htarget
  have hthird : third () = compile () := by
    unfold third
    rw [if_neg (by rw [hcan]; decide)]
  rw [if_neg (by rw [hsealed]; decide), hfirst, hsecond, hthird]
  unfold compile handBack
  dsimp only
  rfl

/-- A fragment whose trace has all that it needs is compiled, or a limit stops that: the error is
the one that compiling the trace stopped at, in a state where the limit is exceeded. -/
theorem assemble_ends (hf : shop.region.Frees l) (htrace : f.trace = some buffer)
    (hvalid : buffer.validate = .ok ())
    (htarget : buffer.insts.back?.any (·.op == .jumpTree) = true → target.any (·.executable) = true)
    (hcan : Registers.canHave limits.maxReservations limits.maxSpillSlots = true)
    (hlaid : shop.region.Laid)
    (hpage : 1024 ≤ shop.region.pageSize) (hcallable : limits.target.Callable)
    (hoffers : ∀ (k : Nat) i, buffer.insts[k]? = some i →
      (jobOf limits .standard f target buffer).Offers k i) :
    Ensures (fun e _ => ∃ x s, e = .compile x ∧
      Assembler.wholeTrace (jobOf limits .standard f target buffer) (startOf limits buffer shop) =
        .error (.error x) s ∧
      Exceeded limits shop.region.pages.size f.render s x) (assemble limits .standard f target) shop
        fun _ _ => True := by
  let job := jobOf limits .standard f target buffer
  have hjob : job.Fit shop.region := ⟨hlaid, hpage, rfl, rfl, hcallable⟩
  have hshaped : Shaped job shop.region l shop.guardCount (startOf limits buffer shop) :=
    shaped_start hf job
  have hpositive : 0 < limits.maxReservations := by
    unfold Registers.canHave at hcan
    simp only [Bool.and_eq_true, decide_eq_true_eq] at hcan
    exact hcan.1.1
  have horderly : Orderly job shop.region l job.set.buffer.size
      (startOf limits buffer shop).alloc := by
    obtain ⟨_, -, hw⟩ := id hshaped
    refine ⟨Registers.sound_create _ _ _ _, hw.tidy hlaid, ?_⟩
    show limits.maxReservations ≤
      ((Registers.create limits.maxReservations.toNat _ _).table.size : Int)
    rw [Registers.create_table]
    omega
  have hends := Assembler.wholeTrace_ends hjob rfl hoffers horderly hshaped
  unfold Ensures
  rw [assemble_runs htrace hvalid htarget hcan shop]
  cases hwhole : Assembler.wholeTrace job (startOf limits buffer shop) with
  | ok a s => trivial
  | error e s =>
    obtain ⟨x, rfl, hx⟩ := (ensures_error hwhole).mp hends
    obtain ⟨_, -, hw⟩ := ((Assembler.wholeTrace_shaped hjob.backend).error hwhole).1 hshaped
    obtain ⟨region, -, habandon, -⟩ := hw.drawn.abandon hf.nodup
    simp only [handBack, habandon]
    exact ⟨x, s, rfl, rfl, hx⟩

/-- Only the pages of a compiled fragment were written to. -/
theorem assemble_confined (hf : shop.region.Frees l) (hlaid : shop.region.Laid) {a : Assembly}
    (h : assemble limits helpers f target shop = .ok a shop') (n : Nat)
    (hn : n / shop.region.bytes ∉ a.mainPages ++ a.exitPages) :
    shop'.region.mem.get? n = shop.region.mem.get? n := by
  rcases assemble_eq limits helpers f target shop with ⟨e, -, heq⟩ | ⟨buffer, -, -, heq⟩
  · rw [heq] at h
    cases h
  rw [heq] at h
  let job := jobOf limits helpers f target buffer
  cases hwhole : Assembler.wholeTrace job (startOf limits buffer shop) with
  | error e s =>
    rw [hwhole] at h
    cases e <;> cases h
  | ok a' s =>
    rw [hwhole] at h
    cases h
    obtain ⟨_, -, hw⟩ := (Assembler.wholeTrace_shaped rfl).ok hwhole (shaped_start hf job)
    obtain ⟨-, hmain, hexit, -⟩ := Assembler.wholeTrace_ok (r := shop.region) (l := l) hwhole
    refine (hw.tidy hlaid).confined n fun side hin => hn (List.mem_append.mpr ?_)
    cases side with
    | main => exact .inl (hmain ▸ Array.mem_toList_iff.mpr hin)
    | exits => exact .inr (hexit ▸ Array.mem_toList_iff.mpr hin)

end assemble

end LoopTracer.Compile

import LoopTracer.Proofs.Trace.Recording

/-! The shape of a trace.

What the compiler relies on is said of every instruction at its place (`Inst.Fits`) and of the trace
as a whole (`Buffer.Shaped`). Neither is lost when an instruction that fits is added
(`Shaped.push`). The last instruction may be one that sets the overflow flag, until its guard
follows; a trace where none is pending is `Settled`. -/
namespace LoopTracer.Trace

/-- An instruction that fits at place `n` of a trace with so many local variables: it has a known
operation, what it uses was made before, it has an exit if it is a guard, and the exit lists all
live slots in order. -/
structure Inst.Fits (locals : Nat) (b : Buffer) (n : Nat) (i : Inst) : Prop where
  known : ∀ m, i.op ≠ .other m
  uses : ∀ ref ∈ i.operands ++ i.snapshotRefs, ref < n ∧ Makes b ref
  few : i.op = .call → i.args.length ≤ maxCallArgs
  exit : i.op.isGuard = i.exit.isSome
  snapshot : ∀ x, i.exit = some x → 0 ≤ locals + x.depth ∧
    x.snapshot.map (·.addr.slot) = (List.range (locals + x.depth).toNat).map Int.ofNat
  follows : i.op = .exitOv → ∃ m j, n = m + 1 ∧ i.a = m ∧ b.insts[m]? = some j ∧
    j.op.setsOverflow = true

/-- A trace that starts with a `param` for every type of `entry`. -/
structure Buffer.Shaped (entry : TypeMap) (locals : Nat) (b : Buffer) : Prop where
  fits : ∀ (n : Nat) i, b.insts[n]? = some i → i.Fits locals b n
  params : ∀ (n : Nat) i, b.insts[n]? = some i → (i.op = .param ↔ n < entry.length) ∧
    (i.op = .param → i.slot.slot = n ∧ entry[n]? = some i.type)
  guarded : ∀ (n : Nat) i j, b.insts[n]? = some i → i.op.setsOverflow = true →
    b.insts[n + 1]? = some j →
    j.op = .exitOv
  single : ∀ (m n : Nat) i j, b.insts[m]? = some i → b.insts[n]? = some j →
    i.op = .imm → j.op = .imm →
    i.imm = j.imm → i.type = j.type → m = n

/-- No instruction waits for a guard to test whether it fits. -/
def Buffer.Settled (b : Buffer) : Prop := ∀ i, b.insts.back? = some i → i.op.setsOverflow = false

/-- The trace with one more instruction. -/
def Buffer.push (b : Buffer) (i : Inst) : Buffer := { b with insts := b.insts.push i }

section Shaped

variable {entry : TypeMap} {locals n : Nat} {b b' : Buffer} {i j : Inst} {ref : Int}

theorem Buffer.get?_eq (b : Buffer) (n : Nat) : b.get? n = b.insts[n]? := by
  unfold Buffer.get?
  rw [if_neg (Int.not_lt.mpr (Int.natCast_nonneg n)), Int.toNat_natCast]

/-- A value of a trace is an instruction with a result. -/
theorem makes_iff : Makes b ref ↔ ∃ (n : Nat)
    (i : Inst), ref = n ∧ b.insts[n]? = some i ∧ i.op.hasResult = true := by
  constructor
  · intro h
    obtain ⟨n, rfl⟩ := Int.eq_ofNat_of_zero_le h.bounds.1
    obtain ⟨i, hget, hresult⟩ := h
    exact ⟨n, i, rfl, (b.get?_eq n).symm.trans hget, hresult⟩
  · rintro ⟨n, i, rfl, hget, hresult⟩
    exact ⟨i, (b.get?_eq n).trans hget, hresult⟩

theorem Buffer.push_get (b : Buffer) (i : Inst) (n : Nat) :
    (b.push i).insts[n]? = if n = b.size then some i else b.insts[n]? := Array.getElem?_push

theorem Buffer.push_get_old (h : b.insts[n]? = some j) (i : Inst) :
    (b.push i).insts[n]? = some j := by
  have hlt : n < b.size := (Array.getElem?_eq_some_iff.mp h).1
  rw [b.push_get, if_neg (Nat.ne_of_lt hlt), h]

theorem Makes.push (h : Makes b ref) (i : Inst) : Makes (b.push i) ref := by
  obtain ⟨n, j, rfl, hget, hresult⟩ := makes_iff.mp h
  exact makes_iff.mpr ⟨n, j, rfl, Buffer.push_get_old hget i, hresult⟩

theorem Inst.Fits.push (h : j.Fits locals b n) (i : Inst) : j.Fits locals (b.push i) n where
  known := h.known
  uses ref href := ⟨(h.uses ref href).1, (h.uses ref href).2.push i⟩
  few := h.few
  exit := h.exit
  snapshot := h.snapshot
  follows hop := by
    obtain ⟨m, k, rfl, ha, hget, hsets⟩ := h.follows hop
    exact ⟨m, k, rfl, ha, Buffer.push_get_old hget i, hsets⟩

/-- An instruction that fits may follow, if it is the guard of a pending one or none is pending. -/
theorem Buffer.Shaped.push (h : b.Shaped entry locals) (hfits : i.Fits locals b b.size)
    (hparam : (i.op = .param ↔ b.size < entry.length) ∧
      (i.op = .param → i.slot.slot = b.size ∧ entry[b.size]? = some i.type))
    (hpending : b.Settled ∨ i.op = .exitOv)
    (hnew : i.op = .imm → ∀ (n : Nat) j, b.insts[n]? = some j → j.op = .imm → j.imm = i.imm →
      j.type = i.type → False) :
    (b.push i).Shaped entry locals := by
  -- every instruction of the longer trace is an old one or the new one
  have hcases : ∀ {n : Nat} {j}, (b.push i).insts[n]? = some j →
      (n = b.size ∧ j = i) ∨ b.insts[n]? = some j := by
    intro n j hj
    rw [b.push_get] at hj
    split at hj
    · next heq => exact .inl ⟨heq, (Option.some.inj hj).symm⟩
    · exact .inr hj
  refine ⟨fun n j hj => ?_, fun n j hj => ?_, fun n j k hj hsets hk => ?_,
    fun m n j k hj hk himm himm' hsame htype => ?_⟩
  · rcases hcases hj with ⟨rfl, rfl⟩ | hj
    · exact hfits.push j
    · exact (h.fits n j hj).push i
  · rcases hcases hj with ⟨rfl, rfl⟩ | hj
    · exact hparam
    · exact h.params n j hj
  · rcases hcases hk with ⟨hn, rfl⟩ | hk
    · refine hpending.resolve_left fun hsettled => ?_
      have hlt : n < b.insts.size := by
        show n < b.size
        omega
      have hj : b.insts[n]? = some j := by
        rcases hcases hj with ⟨rfl, -⟩ | hj
        · exact absurd hlt (Nat.lt_irrefl _)
        · exact hj
      have hback : b.insts.back? = some j := by
        rw [Array.back?_eq_getElem?, ← hj]
        exact congrArg (b.insts[·]?) (show b.size - 1 = n by omega)
      rw [hsettled j hback] at hsets
      cases hsets
    · have hlt := (Array.getElem?_eq_some_iff.mp hk).1
      rcases hcases hj with ⟨rfl, -⟩ | hj
      · exact absurd hlt (by show ¬ b.size + 1 < b.size; omega)
      · exact h.guarded n j k hj hsets hk
  · rcases hcases hj with ⟨hm, rfl⟩ | hold
    · rcases hcases hk with ⟨hn, -⟩ | hold'
      · rw [hm, hn]
      · exact (hnew himm n k hold' himm' hsame.symm htype.symm).elim
    · rcases hcases hk with ⟨-, rfl⟩ | hold'
      · exact (hnew himm' m j hold himm hsame htype).elim
      · exact h.single m n j k hold hold' himm himm' hsame htype

theorem Buffer.settled_push (b : Buffer) (h : i.op.setsOverflow = false) : (b.push i).Settled := by
  intro j hj
  rw [show (b.push i).insts = b.insts.push i from rfl, Array.back?_push] at hj
  exact Option.some.inj hj ▸ h

end Shaped

end LoopTracer.Trace

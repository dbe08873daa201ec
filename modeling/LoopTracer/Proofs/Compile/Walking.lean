import LoopTracer.Proofs.Compile.Linking
import LoopTracer.Proofs.Machine.Performing

/-! Running code that is strung together.

The machine goes along the pieces of a chain as they are followed in memory, over the jumps by which
a page goes on in the page before (`Follows.leads`). So what its requests do when they are carried
out, the code of a chain does. -/
namespace LoopTracer.Compile

open Machine

variable {η : Type} {host : Host η} {b : Backend} {mem : Memory} {stop place : Nat}
  {pieces later : List Piece}
  {m m' : State} {env env' : η} {target : CodeAddr}

/-- Where pieces are followed from that another one comes after. -/
def Piece.startOf (pieces : List Piece) (p : Piece) : Nat := (pieces.head?.getD p).place

/-- Code can be followed to one of its pieces. -/
theorem Follows.upTo {p : Piece} (h : Follows b mem stop place (pieces ++ p :: later)) :
    Follows b mem p.place place pieces ∧ place = p.startOf pieces ∧
    Follows b mem stop p.place (p :: later) := by
  induction pieces generalizing place with
  | nil =>
    obtain ⟨rfl, hrest⟩ := h
    exact ⟨rfl, rfl, rfl, hrest⟩
  | cons q pieces ih =>
    obtain ⟨rfl, hshows, hnext⟩ := h
    cases hrequest : q.request with
    | some i =>
      rw [hrequest] at hnext
      obtain ⟨hencode, hnext⟩ := hnext
      obtain ⟨hfollows, -, hlater⟩ := ih hnext
      refine ⟨⟨rfl, hshows, ?_⟩, rfl, hlater⟩
      rw [hrequest]
      exact ⟨hencode, hfollows⟩
    | none =>
      rw [hrequest] at hnext
      obtain ⟨site, target, hsite, hbytes, hjumps, hnext⟩ := hnext
      obtain ⟨hfollows, -, hlater⟩ := ih hnext
      refine ⟨⟨rfl, hshows, ?_⟩, rfl, hlater⟩
      rw [hrequest]
      exact ⟨site, target, hsite, hbytes, hjumps, hfollows⟩

/-- A distance inside a region that 32 bits can span leads to its target. -/
theorem distance_leads {stop : Nat} (hstop : stop ≤ mem.size) (hsize : mem.size < 2 ^ 31)
    (ht : target.toNat < 2 ^ 31) :
    (stop : Int) + (distance target stop).toInt = target.toNat := by
  rw [distance, Int32.toInt_ofInt_of_le (by omega) (by omega)]
  omega

/-- A jump in memory is one step. -/
theorem jumps_lead {site : CodeAddr} (h : Jumps .virtual mem site target)
    (hsize : mem.size < 2 ^ 31)
    (ht : target.toNat < 2 ^ 31) (m : State) (env : η) :
    Leads host mem 1 ⟨site.toNat, m, env⟩ ⟨target.toNat, m, env⟩ := by
  have hinside : site.toNat + Virtual.wordSize ≤ mem.size := h.inside
  refine leads_execute
    (w := { op := .jump, x := distance target ((site.toNat : Int) + Virtual.wordSize) })
      nofun hinside
    h.shows fun steps => ⟨steps, ?_⟩
  have hleads := distance_leads hinside hsize ht
  show (_, env, Next.at ((site.toNat : Int) + Virtual.wordSize + _)) = (_, env, Next.at _)
  rw [← hleads, Int.natCast_add]

/-- The last byte of a word that is shown lies in the memory. -/
theorem inside_of_shows {bytes : List UInt8} (h : mem.Shows place bytes) (hbytes : bytes ≠ []) :
    place + bytes.length ≤ mem.size := by
  have hpos := List.length_pos_iff.mpr hbytes
  have hlast := h (bytes.length - 1) _ (List.getElem?_eq_getElem (by omega))
  refine Classical.byContradiction fun hout => ?_
  rw [Memory.get?_of_ge (by omega)] at hlast
  cases hlast

section Words

variable {pos : CodeAddr} {i : Instr} {p : Piece} {w : Virtual.Word}

/-- The word of a request stands in memory, and its piece ends behind it. -/
theorem word_stands (hencode : Virtual.encode pos i = p.bytes) (hshows : mem.Shows p.place p.bytes)
    (hw : Virtual.word? pos i = some w) :
    mem.Shows p.place w.bytes ∧ p.stop = p.place + Virtual.wordSize ∧
      p.place + Virtual.wordSize ≤ mem.size := by
  have hbytes : p.bytes = w.bytes := by
    rw [← hencode]
    unfold Virtual.encode
    rw [hw]
    rfl
  have hlength : p.bytes.length = Virtual.wordSize := by
    rw [hbytes]
    exact Virtual.Word.length_bytes w
  refine ⟨hbytes ▸ hshows, congrArg (p.place + ·) hlength, ?_⟩
  rw [← hlength]
  exact inside_of_shows hshows (List.ne_nil_of_length_pos (by rw [hlength]; decide))

/-- The word of a branch says how far its target is from the end of its piece. -/
theorem word_distance (hpos : pos.toNat = p.stop) (hencode : Virtual.encode pos i = p.bytes)
    (hshows : mem.Shows p.place p.bytes) (hsize : mem.size < 2 ^ 31)
    (hw : Virtual.word? pos i = some w) {t : CodeAddr}
    (hx : w.x = distance t (Virtual.word?.endOf pos)) (ht : t.toNat < 2 ^ 31) :
    (p.place : Int) + Virtual.wordSize + w.x.toInt = t.toNat := by
  obtain ⟨-, hstop, hinside⟩ := word_stands hencode hshows hw
  have hend : Virtual.word?.endOf pos = p.stop := by
    have hsub : (pos - 16).toNat = pos.toNat - 16 :=
      toNat_sub_of_le (k := 16) (by rw [hpos, hstop]; exact Nat.le_add_left ..)
    have hsize : Virtual.wordSize = 16 := rfl
    unfold Virtual.word?.endOf
    rw [hsub, hpos]
    omega
  have hinside' : p.stop ≤ mem.size := hstop ▸ hinside
  rw [hx, hend, ← distance_leads hinside' hsize ht, hstop, Int.natCast_add]

/-- A request that is no branch takes a step, or none if it moves a register to itself. -/
theorem straight_leads (hi : i.Straight) (hencode : Virtual.encode pos i = p.bytes)
    (hshows : mem.Shows p.place p.bytes) (h : i.perform host m env = .on m' env') :
    ∃ n, Leads host mem n ⟨p.place, m, env⟩ ⟨p.stop, m', env'⟩ := by
  rcases Instr.perform_straight_on hi h with ⟨hnone, rfl, rfl⟩ | ⟨w, next, hw, hexecute⟩
  · have hbytes : p.bytes = [] := by
      rw [← hencode]
      unfold Virtual.encode
      rw [Instr.straight_word? hi, hnone]
      rfl
    have hstop : p.stop = p.place :=
      congrArg (fun bytes : List UInt8 => p.place + bytes.length) hbytes
    rw [hstop]
    exact ⟨0, .refl host mem _⟩
  · have hw' : Virtual.word? pos i = some w := by rw [Instr.straight_word? hi, hw]
    obtain ⟨hshows, hstop, hinside⟩ := word_stands hencode hshows hw'
    obtain ⟨hguard, hjump, hother⟩ := Instr.straight_op hi hw
    refine ⟨1, leads_execute hother hinside hshows fun steps => ⟨steps, ?_⟩⟩
    rw [execute_elsewhere steps hguard hjump hexecute, hstop, Int.natCast_add]

/-- The word of a guard, where the machine knows whether the guard is left. -/
theorem guard_executes {r : Reg} {cond : GuardCond} {leaves : Bool}
    (h : m.leaves? r cond = some leaves) (x : Int32) (place steps : Nat) :
    execute host { op := .guard, a := r.byte, b := cond.toByte, x } place { m with steps } env =
      ({ m with steps }, env, .at (if leaves then (place : Int) + Virtual.wordSize + x.toInt
        else (place : Int) + Virtual.wordSize)) := by
  cases cond with
  | zero =>
    obtain ⟨v, hv, rfl⟩ := Option.map_eq_some_iff.mp h
    show reading { m with steps } env r.byte _ = _
    unfold reading
    rw [hv]
  | nonZero =>
    obtain ⟨v, hv, rfl⟩ := Option.map_eq_some_iff.mp h
    show reading { m with steps } env r.byte _ = _
    unfold reading
    rw [hv]
  | overflow =>
    obtain rfl := Option.some.inj h
    rfl
  | other n => cases h

/-- A guard takes one step, behind it or to its target. -/
theorem guard_leads {r : Reg} {cond : GuardCond} {t : CodeAddr} (hpos : pos.toNat = p.stop)
    (hencode : Virtual.encode pos (.guard cond r t) = p.bytes)
    (hshows : mem.Shows p.place p.bytes) (hsize : mem.size < 2 ^ 31) {leaves : Bool}
    (h : m.leaves? r cond = some leaves) :
    (leaves = false → Leads host mem 1 ⟨p.place, m, env⟩ ⟨p.stop, m, env⟩) ∧
      (leaves = true → t.toNat < 2 ^ 31 →
        Leads host mem 1 ⟨p.place, m, env⟩ ⟨t.toNat, m, env⟩) := by
  obtain ⟨hword, hstop, hinside⟩ := word_stands hencode hshows rfl
  have hother : ∀ n, Virtual.Opcode.guard ≠ .other n := fun n h => by cases h
  refine ⟨fun hleaves => ?_, fun hleaves ht => ?_⟩
  · subst hleaves
    refine leads_execute hother hinside hword fun steps => ⟨steps, ?_⟩
    rw [guard_executes h, hstop, Int.natCast_add]
    rfl
  · subst hleaves
    refine leads_execute hother hinside hword fun steps => ⟨steps, ?_⟩
    rw [guard_executes h, ← word_distance hpos hencode hshows hsize rfl rfl ht]
    rfl

/-- A request whose word is in memory: the machine gets where it leads. -/
theorem request_leads (hpos : pos.toNat = p.stop) (hencode : Virtual.encode pos i = p.bytes)
    (hshows : mem.Shows p.place p.bytes) (hsize : mem.size < 2 ^ 31) :
    (i.perform host m env = .on m' env' →
      ∃ n, Leads host mem n ⟨p.place, m, env⟩ ⟨p.stop, m', env'⟩) ∧
      (i.perform host m env = .away target m' env' → target.toNat < 2 ^ 31 →
        ∃ n, Leads host mem (n + 1) ⟨p.place, m, env⟩ ⟨target.toNat, m', env'⟩) := by
  by_cases hi : i.Straight
  · exact ⟨straight_leads hi hencode hshows,
      fun h => absurd h (Instr.perform_straight_away hi target)⟩
  cases i with
  | jump t =>
    obtain ⟨hword, hstop, hinside⟩ := word_stands hencode hshows rfl
    refine ⟨fun h => (by cases h), fun h ht => ⟨0, ?_⟩⟩
    cases h
    refine leads_execute (w := { op := .jump, x := distance target (Virtual.word?.endOf pos) })
      (fun n h => by cases h) hinside hword fun steps => ⟨steps, ?_⟩
    rw [← word_distance hpos hencode hshows hsize rfl rfl ht]
    rfl
  | guard cond r t =>
    cases hleaves : m.leaves? r cond with
    | none =>
      have hstuck : Instr.perform host (.guard cond r t) m env = .stuck := by
        unfold Instr.perform
        dsimp only
        rw [hleaves]
      rw [hstuck]
      exact ⟨fun h => (by cases h), fun h => (by cases h)⟩
    | some leaves =>
      rw [Instr.perform_guard hleaves]
      cases leaves with
      | false =>
        refine ⟨fun h => ?_, fun h => (by cases h)⟩
        cases h
        exact ⟨1, (guard_leads hpos hencode hshows hsize hleaves).1 rfl⟩
      | true =>
        refine ⟨fun h => (by cases h), fun h ht => ?_⟩
        cases h
        exact ⟨0, (guard_leads hpos hencode hshows hsize hleaves).2 rfl ht⟩
  | _ => exact absurd trivial hi

end Words

/-- Code that ends in the memory lies in it. -/
theorem Follows.place_le (h : Follows b mem stop place pieces)
    (hstop : stop ≤ mem.size) : place ≤ mem.size := by
  induction pieces generalizing place with
  | nil =>
    obtain rfl : place = stop := h
    exact hstop
  | cons p rest ih =>
    obtain ⟨rfl, hshows, hnext⟩ := h
    by_cases hbytes : p.bytes = []
    · cases hrequest : p.request with
      | none =>
        rw [hrequest] at hnext
        obtain ⟨site, target, -, hjump, -⟩ := hnext
        have hlength := b.length_jumpBytes site target
        rw [← hjump, hbytes] at hlength
        cases b <;> cases hlength
      | some i =>
        rw [hrequest] at hnext
        have hrest := ih hnext.2
        rwa [Piece.stop, hbytes] at hrest
    · have := inside_of_shows hshows hbytes
      omega

/-- Where the requests of pieces lead, their code leads. -/
theorem Follows.leads (h : Follows .virtual mem stop place pieces) (hstop : stop ≤ mem.size)
    (hsize : mem.size < 2 ^ 31) :
    (performAll host (requests pieces) m env = .on m' env' →
      ∃ n, Leads host mem n ⟨place, m, env⟩ ⟨stop, m', env'⟩) ∧
    ∀ target, performAll host (requests pieces) m env = .away target m' env' →
    target.toNat < 2 ^ 31 →
      ∃ n, Leads host mem (n + 1) ⟨place, m, env⟩ ⟨target.toNat, m', env'⟩ := by
  induction pieces generalizing place m env with
  | nil =>
    obtain rfl : place = stop := h
    refine ⟨fun h => ?_, nofun⟩
    cases h
    exact ⟨0, .refl host mem _⟩
  | cons p rest ih =>
    obtain ⟨rfl, hshows, hnext⟩ := h
    cases hrequest : p.request with
    | none =>
      rw [hrequest] at hnext
      obtain ⟨site, target, hsite, hbytes, hjumps, hnext⟩ := hnext
      have ht : target.toNat < 2 ^ 31 := Nat.lt_of_le_of_lt (hnext.place_le hstop) hsize
      have hjump : Leads host mem 1 ⟨p.place, m, env⟩ ⟨target.toNat, m, env⟩ :=
        hsite ▸ jumps_lead hjumps hsize ht m env
      have hrequests : requests (p :: rest) = requests rest := by
        rw [requests_cons, hrequest]; rfl
      rw [hrequests]
      refine ⟨fun h => ?_, fun t h ht => ?_⟩
      · obtain ⟨n, hn⟩ := (ih hnext).1 h
        exact ⟨1 + n, hjump.trans hn⟩
      · obtain ⟨n, hn⟩ := (ih hnext).2 t h ht
        exact ⟨1 + n, hjump.trans hn⟩
    | some i =>
      rw [hrequest] at hnext
      obtain ⟨hencode, hnext⟩ := hnext
      have hpos : (UInt32.ofNat p.stop).toNat = p.stop := by
        have := hnext.place_le hstop
        exact UInt32.toNat_ofNat_of_lt' (show _ < 2 ^ 32 by omega)
      have hstep : ∀ (m' : State) (env' : η) (target : CodeAddr),
          (i.perform host m env = .on m' env' →
            ∃ n, Leads host mem n ⟨p.place, m, env⟩ ⟨p.stop, m', env'⟩) ∧
            (i.perform host m env = .away target m' env' → target.toNat < 2 ^ 31 →
              ∃ n, Leads host mem (n + 1) ⟨p.place, m, env⟩ ⟨target.toNat, m', env'⟩) :=
        fun _ _ _ => request_leads hpos (Except.ok.inj hencode) hshows hsize
      have hrequests : requests (p :: rest) = i :: requests rest := by
        rw [requests_cons, hrequest]; rfl
      rw [hrequests, performAll_head]
      cases hperform : i.perform host m env with
      | on m₁ env₁ =>
        obtain ⟨n, hn⟩ := (hstep m₁ env₁ 0).1 hperform
        refine ⟨fun h => ?_, fun t h ht => ?_⟩
        · obtain ⟨k, hk⟩ := (ih hnext).1 h
          exact ⟨n + k, hn.trans hk⟩
        · obtain ⟨k, hk⟩ := (ih hnext).2 t h ht
          exact ⟨n + k, hn.trans hk⟩
      | away t m₁ env₁ =>
        refine ⟨nofun, fun target h ht => ?_⟩
        cases h
        exact (hstep _ _ _).2 hperform ht
      | stuck => exact ⟨nofun, nofun⟩

end LoopTracer.Compile

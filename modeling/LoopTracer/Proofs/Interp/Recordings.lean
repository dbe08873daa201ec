import LoopTracer.Proofs.Interp.Report

/-! Recordings under way.

A recording is made from one run of the interpreter, and its trace is later run on other states.
`recording_follows` carries the connection through the recording, step after step: a pass over the
trace so far, started on the words of any values of the entry types, follows the interpreter started
on these values. It either stands where the recording stands, or it has left through an exit that
leads back to the interpreter. -/
namespace LoopTracer.Interp

open Bytecode Trace

/-! ### Runs inside a frame -/

/-- Instructions of a function, carried out on its locals and operands. -/
inductive LocalRun (fn : Function) (c : Chunk) (ip : Int) (l ops : List Value) :
    Int → List Value → List Value → Prop where
  | refl : LocalRun fn c ip l ops ip l ops
  | step {i : Nat} {op : Opcode} {ip' : Int} {l' ops' l'' ops'' : List Value} {event : Event}
      (h : LocalRun fn c ip l ops i l' ops') (hop : Whole fn c i op)
      (hstep : localStep c op i l' ops' = some (.next ip' l'' ops'' event)) :
      LocalRun fn c ip l ops ip' l'' ops''

/-- The interpreter carries out instructions of the running frame: no call and no return, no output
and no error. -/
inductive Within (units : Units) (s : State) : State → Prop where
  | refl : Within units s s
  | step {s' s'' : State} {f : Frame} {rest : List Frame} {ip : Int} {event : Event}
      (h : Within units s s') (hstep : step units .standard s' = .ok event s'')
      (hframe : s'.frames = f :: rest) (hframe' : s''.frames = { f with ip } :: rest)
      (hout : s''.out = s'.out) : Within units s s''

section Runs

variable {s : State} {f : Frame} {rest : List Frame} {c : Chunk} {i : Nat}
variable {op : Opcode} {l ops : List Value}

/-- What an orderly state is about to do, for its frame. -/
theorem Orderly.next_in (h : Orderly s) (hframes : s.frames = f :: rest) :
    ∃ c res i op l ops, Next s f rest c res i op l ops := by
  obtain ⟨f', rest', c, res, i, op, l, ops, hn⟩ := h.next
  have hsame := hn.poised.frames
  rw [hframes] at hsame
  cases hsame
  exact ⟨c, res, i, op, l, ops, hn⟩

/-- What an orderly state is about to do, for what its frame shows. -/
theorem Orderly.next_shown (h : Orderly s) (hframes : s.frames = f :: rest)
    (hchunk : f.fn.chunk = some c) (hshows : Shows s f l ops) :
    ∃ res i op, Next s f rest c res i op l ops := by
  obtain ⟨c', res, i, op, l', ops', hn⟩ := h.next_in hframes
  have hc := hn.poised.chunk
  rw [hchunk] at hc
  cases hc
  obtain ⟨rfl, rfl⟩ := hshows.unique hn.shows
  exact ⟨res, i, op, hn⟩

/-- A state that is about to carry out the instruction at its offset. -/
theorem Next.of_whole {res : StackDepth.Result} {j : Nat} {op' : Opcode}
    (h : Next s f rest c res j op' l ops) (hip : f.ip = i) (hop : Whole f.fn c i op) :
    Next s f rest c res i op l ops := by
  have hj := h.poised.ip
  rw [hip] at hj
  obtain rfl : i = j := by omega
  have hop' := h.poised.whole.opcode
  rw [hop.opcode] at hop'
  cases hop'
  exact h

/-- The interpreter follows a run on locals and operands. -/
theorem LocalRun.within {fn : Function} {ip ip' : Int} {l' ops' : List Value}
    (h : LocalRun fn c ip l ops ip' l' ops') (units : Units) (hs : Orderly s)
    (hframes : s.frames = f :: rest) (hfn : f.fn = fn) (hchunk : fn.chunk = some c)
    (hip : f.ip = ip) (hshows : Shows s f l ops) :
    ∃ s', Within units s s' ∧ Orderly s' ∧ s'.frames = { f with ip := ip' } :: rest ∧
      Shows s' f l' ops' := by
  subst hfn
  induction h with
  | refl =>
    subst hip
    exact ⟨s, .refl, hs, hframes, hshows⟩
  | @step i op ip' l' ops' l'' ops'' event _ hop hstep ih =>
    obtain ⟨s', hwithin, horderly, hframes', hshows'⟩ := ih
    have hshown : Shows s' { f with ip := (i : Int) } l' ops' := ⟨hshows'.holds, hshows'.locals⟩
    obtain ⟨res, j, op', hn⟩ := horderly.next_shown hframes' hchunk hshown
    obtain ⟨s'', hok, hframes'', hshows'', hkept, horderly'⟩ :=
      horderly.goes_on (hn.of_whole rfl hop) units hstep
    exact ⟨s'', .step hwithin hok hframes' hframes'' hkept.out, horderly', hframes'',
      hshows''.holds, hshows''.locals⟩

end Runs

/-! ### Starting and going on -/

/-- The live slots of a frame have given types. -/
def HasTypes (l ops : List Value) (types : TypeMap) : Prop :=
  (live l ops).map traceType? = types.map some

/-- Where the interpreter starts to record a fragment: at a loop header, with the types that it found
the locals to have, or at a side exit, whose types the values have that were boxed there. -/
inductive StartsAt (s : State) (f : Frame) (g : Fragment) (rootTypes entry : TypeMap) :
    Option (Guard × ExitRecord) → Prop where
  | header (hpc : f.ip = g.key.pc) (htypes : entryTypes f s = .ok (some entry) s) :
      StartsAt s f g rootTypes entry none
  | exit {guard : Guard} {x : ExitRecord} {l ops : List Value} (hpc : f.ip = x.exit.pc)
      (hshows : Shows s f l ops) (hdepth : (ops.length : Int) = x.exit.depth)
      (hentry : entry = x.exit.types) (htypes : HasTypes l ops entry)
      (hroot : (rootTypes.length : Int) = f.fn.locals) :
      StartsAt s f g rootTypes entry (some (guard, x))

/-- The interpreter, in the frame `f` of a verified function, has just started to record the fragment
`g` on slots of the types `entry`. -/
structure Begins (t : Traced) (f : Frame) (g : Fragment) (entry : TypeMap) : Prop where
  orderly : Orderly t.state
  frame : ∃ rest, t.state.frames = f :: rest
  helpers : t.monitor.helpers = .standard
  start : ∃ (r : Recorder) (rootTypes : TypeMap) (anchor : Option (Guard × ExitRecord)),
    r.Used ∧ r.start g rootTypes entry anchor = .ok t.monitor.recorder ∧
    StartsAt t.state f g rootTypes entry anchor

/-- Steps of the interpreter with a monitor, other than loop edges, with a recording under way and
with handles left for the strings. -/
inductive Session (units : Units) (t : Traced) : Traced → Prop where
  | refl : Session units t t
  | step {t' t'' : Traced} {fuel : Nat} (h : Session units t t')
      (hstep : tracedStep units .standard fuel t' = .ok () t'')
      (hloop : ∀ header s', step units .standard t'.state ≠ .ok (.looped header) s')
      (hrecording : t'.monitor.recording = true) (hrecording' : t''.monitor.recording = true)
      (hroom : t''.state.heap.size < 2 ^ 32) : Session units t t''

section Types

variable {s s' : State} {f : Frame} {l ops : List Value} {types : TypeMap}

theorem localTypes_ok {bp : Int} {all : List Value} (hholds : Holds s bp all) {n k : Nat}
    (hn : k + n ≤ all.length) (h : localTypes (bp + k) n s = .ok (some types) s') :
    ((all.drop k).take n).map traceType? = types.map some := by
  induction n generalizing k types with
  | zero =>
    cases h
    simp
  | succ n ih =>
    obtain ⟨v, hv⟩ : ∃ v, all[k]? = some v := ⟨_, List.getElem?_eq_getElem (by omega)⟩
    unfold localTypes at h
    rw [bind_ok (hholds.read hv)] at h
    have hsplit : (all.drop k).take (n + 1) = v :: (all.drop (k + 1)).take n := by
      rw [List.drop_eq_getElem_cons (by omega), List.take_succ_cons]
      congr 1
      rw [List.getElem?_eq_getElem (by omega)] at hv
      exact Option.some.inj hv
    cases ht : traceType? v with
    | none =>
      rw [ht] at h
      cases h
    | some t =>
      rw [ht] at h
      obtain ⟨rest, _, hrest, h⟩ := bind_eq_ok h
      cases rest with
      | none => cases h
      | some rest =>
        cases h
        rw [show bp + (k : Int) + 1 = bp + ((k + 1 : Nat) : Int) by omega] at hrest
        rw [hsplit, List.map_cons, List.map_cons, ht, ih (by omega) hrest]

/-- The types of a loop edge are those of the locals, and there are no operands. -/
theorem entryTypes_ok (hshows : Shows s f l ops) (h : entryTypes f s = .ok (some types) s') :
    ops = [] ∧ l.map traceType? = types.map some := by
  have hlocals := hshows.locals
  unfold entryTypes at h
  obtain ⟨_, _, hget, h⟩ := bind_eq_ok h
  cases hget
  dsimp only at h
  split at h
  · cases h
  · next hsp =>
    split at h
    · obtain ⟨_, _, hfaulty, _⟩ := bind_eq_ok h
      cases hfaulty
    · have hdepth := hshows.depth_eq
      obtain rfl : ops = [] := List.eq_nil_of_length_eq_zero (by omega)
      have htypes : ((l ++ [].reverse).drop 0 |>.take f.fn.locals.toNat).map traceType? = _ :=
        localTypes_ok hshows.holds (by simp; omega) (by simpa using h)
      refine ⟨rfl, ?_⟩
      rw [← htypes, List.drop_zero, List.reverse_nil, List.append_nil,
        List.take_of_length_le (by omega)]

end Types

/-! ### Passes beside a recording -/

/-- A pass starts on values of the entry types: every live slot has the word of its value. -/
structure Entered (fn : Function) (entry : TypeMap) (e₀ : Env) (l₀ ops₀ : List Value) :
    Prop where
  fresh : e₀.values = #[]
  valid : e₀.heap.Valid
  locals : (l₀.length : Int) = fn.locals
  types : HasTypes l₀ ops₀ entry
  words : ∀ (k : Nat) v, (live l₀ ops₀)[k]? = some v →
    ∃ w, e₀.slots[k]? = some w ∧ Represents e₀.heap v w

/-- A pass, started on the lists `l₀` and `ops₀` at `ip₀`, stands where the recording stands,
at `ip`. -/
structure Beside (fn : Function) (c : Chunk) (ip₀ : Int) (e₀ : Env)
    (l₀ ops₀ : List Value) (r : Recorder)
    (ip : Int) (d : Nat) (e : Env) (l ops : List Value) : Prop where
  stays : At e₀ r e
  words : ∀ k : Nat, k < r.params → e.word k = e₀.slots[k]?.getD 0
  run : LocalRun fn c ip₀ l₀ ops₀ ip l ops
  locals : l.length = l₀.length
  depth : ops.length = d
  stands : StandsAll r e (live l ops)

/-- The snapshot of an exit, taken at the end of a pass, boxes to given values. -/
structure Restores (x : SideExit) (e : Env) (vals : List Value) : Prop where
  length : x.snapshot.length = vals.length
  entry : ∀ (k : Nat) v, vals[k]? = some v → ∃ ref t, x.snapshot[k]? = some ⟨.ofSlot k, ref, t⟩ ∧
    traceType? v = some t ∧ rebox e.heap (e.word ref) t = .ok v

/-- A pass that has left through an exit leads back to the interpreter. -/
structure Departed (fn : Function) (c : Chunk) (ip₀ : Int) (l₀ ops₀ : List Value)
    (x : SideExit) (e : Env)
    (l ops : List Value) : Prop where
  run : LocalRun fn c ip₀ l₀ ops₀ x.pc l ops
  depth : (ops.length : Int) = x.depth
  restores : Restores x e (live l ops)

/-- What a recording has achieved so far: passes over its trace stand beside it or have departed. -/
structure Abreast (f₀ : Frame) (c : Chunk) (entry : TypeMap) (t : Traced) (f : Frame)
    (l ops : List Value) : Prop where
  orderly : Orderly t.state
  frame : ∃ rest, t.state.frames = f :: rest
  function : f.fn = f₀.fn
  shows : Shows t.state f l ops
  helpers : t.monitor.helpers = .standard
  recording : t.monitor.recording = true
  wf : t.monitor.recorder.Wf
  locals : t.monitor.recorder.locals = l.length
  live : t.monitor.recorder.Live (l.length + ops.length)
  params : t.monitor.recorder.params ≤ t.monitor.recorder.buffer.size
  reads : t.monitor.recorder.params = entry.length
  passes : ∀ e₀ l₀ ops₀, Entered f₀.fn entry e₀ l₀ ops₀ → e₀.heap.Extends t.state.heap →
    e₀.heap.size + t.monitor.recorder.buffer.size < 2 ^ 32 →
    (∃ e l' ops', Beside f₀.fn c f₀.ip e₀ l₀ ops₀ t.monitor.recorder f.ip ops.length e l' ops') ∨
    ∃ x e l' ops', Gone e₀ t.monitor.recorder x e ∧ Departed f₀.fn c f₀.ip l₀ ops₀ x e l' ops'

section Passes

variable {fn : Function} {c : Chunk} {ip₀ ip ip' : Int} {e₀ e e' : Env} {l₀ ops₀ l ops : List Value}
variable {r r' : Recorder} {x : SideExit} {p : Primitive} {d n : Nat} {vals : List Value}

/-- The exit before a primitive restores what the slots stand for. -/
theorem Exits.restores (hx : Exits r p n x) (hat : At e₀ r e) (hlater : e.Later e')
    (hstands : StandsAll r e vals) (hn : vals.length = n) : Restores x e' vals := by
  refine ⟨by rw [hx.snapshot.length, hn], fun k v hk => ?_⟩
  have hlt := (List.getElem?_eq_some_iff.mp hk).1
  obtain ⟨ref, t, hentry, hsees⟩ := hx.snapshot.entry k (by omega)
  obtain ⟨htype, hrepresents⟩ := (hstands k v hk).at hsees
  exact ⟨ref, t, hentry, htype, (represents_later hsees.makes hat hrepresents hlater).rebox htype⟩

theorem Advanced.gone (ha : Advanced r r') (h : Gone e₀ r x e) : Gone e₀ r' x e := by
  obtain ⟨more, hmore⟩ := ha.insts
  unfold Gone at h ⊢
  rw [hmore, Env.run_append, h]

/-- One recorded step, for a pass that stands beside the recording. -/
theorem Beside.follows {i : Nat} {op : Opcode} {heap : StringHeap} {m d' : Nat}
    (h : Beside fn c ip₀ e₀ l₀ ops₀ r i d e l ops) (hop : Whole fn c i op)
    (hfollows : Follows c op i ip heap p m d r r') (hm : m = l₀.length) (hp : p.pc = i)
    (hd : p.depth = d) (ha : Advanced r r') (hparams : r.params ≤ r.buffer.size)
    (hheap : e₀.heap.Extends heap) (hroom : e₀.heap.size + r'.buffer.size < 2 ^ 32)
    (hd' : StackDepth.after c op i d = d') :
    (∃ e' l' ops', Beside fn c ip₀ e₀ l₀ ops₀ r' ip d' e' l' ops') ∨
      ∃ x e' l' ops', Gone e₀ r' x e' ∧ Departed fn c ip₀ l₀ ops₀ x e' l' ops' := by
  rcases hfollows e₀ e l ops h.stays hheap hroom (by rw [hm, h.locals]) h.depth h.stands with
    ⟨e', l', ops', event, hat, hlater, hstep, hstands⟩ | ⟨x, e', hgone, hlater, hx⟩
  · obtain ⟨hl', hops', -⟩ := localStep_next hop hstep
    refine .inl ⟨e', l', ops', hat, fun k hk => ?_, .step h.run hop hstep,
      hl'.trans h.locals, ?_, hstands⟩
    · rw [ha.params] at hk
      rw [hlater.words k ⟨by omega, by rw [h.stays.size]; omega⟩]
      exact h.words k hk
    · rw [hops', h.depth, hd']
  · refine .inr ⟨x, e', l, ops, hgone, ?_, ?_, hx.restores h.stays hlater h.stands ?_⟩
    · rw [hx.pc, hp]
      exact h.run
    · rw [hx.depth, hd, h.depth]
    · rw [length_live, h.locals, h.depth, hm]

end Passes

section Recordings

variable {units : Units} {t₀ t t' : Traced} {f₀ f : Frame} {g : Fragment}
  {c : Chunk} {entry : TypeMap}
variable {l ops : List Value}

theorem HasTypes.length {types : TypeMap} (h : HasTypes l ops types) :
    types.length = l.length + ops.length := by
  have := congrArg List.length h
  rw [List.length_map, List.length_map, length_live] at this
  exact this.symm

theorem HasTypes.get {types : TypeMap} (h : HasTypes l ops types) {k : Nat} {v : Value}
    (hk : (live l ops)[k]? = some v) : ∃ ty, types[k]? = some ty ∧ traceType? v = some ty := by
  have hmap := congrArg (·[k]?) h
  simp only [List.getElem?_map, hk, Option.map_some] at hmap
  cases hty : types[k]? with
  | none =>
    rw [hty] at hmap
    cases hmap
  | some ty =>
    rw [hty] at hmap
    exact ⟨ty, rfl, Option.some.inj hmap⟩

/-- The lists that the interpreter has when a recording starts. -/
theorem StartsAt.shown {s : State} {r r' : Recorder} {rootTypes : TypeMap}
    {anchor : Option (Guard × ExitRecord)} (h : StartsAt s f₀ g rootTypes entry anchor)
    (hs : Orderly s) (hframe : ∃ rest, s.frames = f₀ :: rest)
    (hstart : r.start g rootTypes entry anchor = .ok r') :
    ∃ l ops, Shows s f₀ l ops ∧ HasTypes l ops entry ∧
      (if g.kind == .branch then rootTypes.length else entry.length) = l.length := by
  obtain ⟨hkind, -⟩ := start_ok hstart
  cases h with
  | header hpc htypes =>
    obtain ⟨rest, hframes⟩ := hframe
    obtain ⟨c, res, i, op, l, ops, hn⟩ := hs.next_in hframes
    obtain ⟨rfl, hl⟩ := entryTypes_ok hn.shows htypes
    have hlive : HasTypes l [] entry := by
      rw [HasTypes, live, List.reverse_nil, List.append_nil, hl]
    refine ⟨l, [], hn.shows, hlive, ?_⟩
    rw [hkind, Option.isSome_none, if_neg (by decide), hlive.length]
    rfl
  | @exit guard x l ops hpc hshows hdepth hentry htypes hroot =>
    refine ⟨l, ops, hshows, htypes, ?_⟩
    have := hshows.locals
    rw [hkind, Option.isSome_some, if_pos rfl]
    omega

/-- A recording starts with every pass beside it. -/
theorem Begins.abreast (h : Begins t₀ f₀ g entry) : ∃ l ops, Abreast f₀ c entry t₀ f₀ l ops := by
  obtain ⟨r, rootTypes, anchor, hused, hstart, hstarts⟩ := h.start
  obtain ⟨l, ops, hshows, htypes, hlocals⟩ := hstarts.shown h.orderly h.frame hstart
  have hlength := htypes.length
  have hsmall : entry.length < 2 ^ 28 := by
    have hsp := hshows.sp_eq
    have hnonneg := hshows.holds.nonneg
    have hfits := hshows.holds.fits
    rw [h.orderly.size, stackSize] at hfits
    omega
  obtain ⟨hwf, hstate, hparams, hlocals', hsees, hpasses⟩ := start_reads hused.valid hsmall hstart
  have hlive : t₀.monitor.recorder.Live (l.length + ops.length) := by
    intro k hk
    exact ⟨k, _, hsees k _ (List.getElem?_eq_getElem (by omega))⟩
  have hread : t₀.monitor.recorder.params ≤ t₀.monitor.recorder.buffer.size := by
    rw [hparams]
    by_cases hempty : entry.length = 0
    · omega
    · have hlast := hsees (entry.length - 1) _ (List.getElem?_eq_getElem (by omega))
      have := hlast.makes.bounds.2
      omega
  refine ⟨l, ops, h.orderly, h.frame, rfl, hshows, h.helpers, ?_, hwf, ?_, hlive, hread, hparams,
    fun e₀ l₀ ops₀ hentered _ _ => .inl ?_⟩
  · rw [Monitor.recording, Recorder.isRecording, hstate]
    rfl
  · rw [hlocals', hlocals]
  · obtain ⟨e, hat, hheap, hwords⟩ := hpasses e₀ hentered.fresh hentered.valid
    have hlength₀ := hentered.types.length
    have hlocals₀ := hentered.locals
    have hlocals₁ := hshows.locals
    refine ⟨e, l₀, ops₀, hat, fun k hk => hwords k (by omega), .refl, rfl,
      by omega, fun k v hk => ?_⟩
    obtain ⟨ty, hty, hv⟩ := hentered.types.get hk
    obtain ⟨w, hw, hrepresents⟩ := hentered.words k v hk
    refine ⟨k, ty, hsees k ty hty, hv, ?_⟩
    rw [hwords k (List.getElem?_eq_some_iff.mp hty).1, hw, hheap]
    exact hrepresents

/-- A recorded step keeps every pass beside the recording, or lets it depart. -/
theorem Abreast.step {fuel : Nat} (h : Abreast f₀ c entry t f l ops)
    (hc : f₀.fn.chunk = some c) (hstep : tracedStep units .standard fuel t = .ok () t')
    (hloop : ∀ header s', Interp.step units .standard t.state ≠ .ok (.looped header) s')
    (hrecording' : t'.monitor.recording = true) (hroom : t'.state.heap.size < 2 ^ 32) :
    ∃ f' l' ops', Abreast f₀ c entry t' f' l' ops' := by
  obtain ⟨rest, hframes⟩ := h.frame
  obtain ⟨res, i, op, hn⟩ := h.orderly.next_shown hframes (h.function ▸ hc) h.shows
  obtain ⟨ip, l', ops', hlogged⟩ := tracedStep_logged h.orderly hn hloop h.helpers h.recording h.wf
    h.locals h.live hstep hrecording' hroom
  obtain ⟨event, hlocal⟩ := hlogged.stays
  obtain ⟨hl', hops', -⟩ := localStep_next hn.poised.whole hlocal
  obtain ⟨p, hp, hd, hfollows⟩ := hlogged.follows
  have hadvanced := hlogged.advanced
  have hwhole : Whole f₀.fn c i op := h.function ▸ hn.poised.whole
  refine ⟨{ f with ip }, l', ops', hlogged.orderly, ⟨rest, hlogged.frames⟩, h.function,
    ⟨hlogged.shows.holds, hlogged.shows.locals⟩, ?_, hrecording', hadvanced.wf, ?_,
    hlogged.live, ?_, ?_,
    fun e₀ l₀ ops₀ hentered hheap hfew => ?_⟩
  · rw [hlogged.monitor]
    exact h.helpers
  · rw [hadvanced.locals, h.locals, hl']
  · rw [hadvanced.params]
    exact Nat.le_trans h.params hadvanced.size
  · rw [hadvanced.params, h.reads]
  · have hsize := hadvanced.size
    rcases h.passes e₀ l₀ ops₀ hentered (hheap.trans hlogged.heap) (by omega) with
      ⟨e, l₁, ops₁, hbeside⟩ | ⟨x, e, l₁, ops₁, hgone, hdeparted⟩
    · rw [hn.poised.ip] at hbeside
      refine hbeside.follows hwhole hfollows ?_ hp hd hadvanced h.params hheap hfew hops'.symm
      have hlocals := hentered.locals
      have hlocals' := h.shows.locals
      rw [h.function] at hlocals'
      omega
    · exact .inr ⟨x, e, l₁, ops₁, hadvanced.gone hgone, hdeparted⟩

/-- All through a recording, every pass over the trace so far stands beside it or has departed. -/
theorem recording_follows (hbegin : Begins t₀ f₀ g entry) (hsession : Session units t₀ t)
    (hc : f₀.fn.chunk = some c) : ∃ f l ops, Abreast f₀ c entry t f l ops := by
  induction hsession with
  | refl =>
    obtain ⟨l, ops, h⟩ := hbegin.abreast (c := c)
    exact ⟨f₀, l, ops, h⟩
  | step _ hstep hloop _ hrecording' hroom ih =>
    obtain ⟨f, l, ops, h⟩ := ih
    exact h.step hc hstep hloop hrecording' hroom

end Recordings

end LoopTracer.Interp

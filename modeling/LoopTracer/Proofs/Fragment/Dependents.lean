import LoopTracer.Proofs.Fragment.Trees

/-! What depends on a fragment.

One round of spreading only adds marks: what depends directly on a marked fragment. As long as a
round changes anything it adds at least one, so as many rounds as there are fragments suffice, and
then whatever depends on a marked fragment is marked itself (`closed_dependents`). If only cached
fragments are marked first, no other one is marked later. -/
namespace LoopTracer.FragmentCache

variable {c : FragmentCache} {mask : Array Bool} {id : FragmentId} {f : Fragment}

theorem marked_iff : marked mask id = true ↔ mask[place id]? = some true := by
  unfold marked
  cases mask[place id]? with
  | none => simp
  | some b => simp

theorem getElem?_set!_true {i j : Nat} :
    (mask.set! j true)[i]? = some true ↔ mask[i]? = some true ∨ i < mask.size ∧ i = j := by
  rw [Array.set!_eq_setIfInBounds, Array.getElem?_setIfInBounds]
  by_cases hij : j = i
  · subst hij
    by_cases hlt : j < mask.size
    · simp [hlt]
    · simp [hlt]
  · simp [hij, Ne.symm hij]

/-- A fold whose steps add marks adds those of all its steps. -/
theorem foldl_marks {α : Type} {step : Array Bool → α → Array Bool} {S : α → Nat → Prop}
    (hsize : ∀ m x, (step m x).size = m.size)
    (hstep : ∀ m x i, (step m x)[i]? = some true ↔ m[i]? = some true ∨ i < m.size ∧ S x i)
    (l : List α)
    (mask : Array Bool) :
    (l.foldl step mask).size = mask.size ∧ ∀ i, (l.foldl step mask)[i]? = some true ↔
      mask[i]? = some true ∨ i < mask.size ∧ ∃ x ∈ l, S x i := by
  induction l generalizing mask with
  | nil => exact ⟨rfl, fun i => by simp⟩
  | cons x l ih =>
    obtain ⟨hsize', hmarks⟩ := ih (step mask x)
    refine ⟨hsize'.trans (hsize mask x), fun i => ?_⟩
    rw [List.foldl_cons, hmarks i, hstep, hsize, or_assoc, ← and_or_left]
    simp only [List.mem_cons, exists_eq_or_imp]

/-- The fragments that a fragment lists as its dependents. -/
def listed (f : Fragment) : List FragmentId := f.children ++ if f.kind = .root then f.peers else []

/-- On account of a fragment the mark `i` is added: it leads into a marked one, or it is marked and
lists another. -/
def Pulls (mask : Array Bool) (f : Fragment) (i : Nat) : Prop :=
  (f.cached = true ∧ f.treeTarget.any (marked mask) = true) ∧ i = place f.id ∨
    marked mask f.id = true ∧ ∃ k ∈ listed f, i = place k

theorem spread_marks (c : FragmentCache) (mask : Array Bool) : (c.spread mask).size = mask.size ∧
    ∀ i, (c.spread mask)[i]? = some true ↔
      mask[i]? = some true ∨ i < mask.size ∧ ∃ f ∈ c.fragments.toList, Pulls mask f i := by
  have hlist : ∀ (f : Fragment) (m : Array Bool),
    ((listed f).foldl (fun next id => next.set! (place id) true) m).size =
      m.size ∧ ∀ i, ((listed f).foldl (fun next id => next.set! (place id) true) m)[i]? =
        some true ↔
        m[i]? = some true ∨ i < m.size ∧ ∃ k ∈ listed f, i = place k := fun f m =>
    foldl_marks (S := fun k i => i = place k) (fun _ _ => by simp)
      (fun _ _ _ => getElem?_set!_true) (listed f) m
  unfold spread
  rw [← Array.foldl_toList]
  refine foldl_marks (fun m f => ?_) (fun m f i => ?_) _ mask
  · dsimp only
    have htarget : (if (f.cached && f.treeTarget.any (marked mask)) = true
      then m.set! (place f.id) true else m).size =
        m.size := by
      split <;> simp
    split
    · exact ((hlist f _).1).trans htarget
    · exact htarget
  · dsimp only
    unfold Pulls
    rw [← Bool.and_eq_true]
    by_cases htarget : (f.cached && f.treeTarget.any (marked mask)) = true <;>
      by_cases hmarked : marked mask f.id = true
    · rw [if_pos htarget, if_pos hmarked]
      change ((listed f).foldl _ _)[i]? = some true ↔ _
      rw [(hlist f _).2, getElem?_set!_true]
      simp [htarget, hmarked, and_or_left, or_assoc]
    · rw [if_pos htarget, if_neg hmarked, getElem?_set!_true]
      simp [htarget, hmarked]
    · rw [if_neg htarget, if_pos hmarked]
      change ((listed f).foldl _ _)[i]? = some true ↔ _
      rw [(hlist f _).2]
      simp [htarget, hmarked]
    · rw [if_neg htarget, if_neg hmarked]
      simp [htarget, hmarked]

theorem spread_mono {i : Nat} (h : mask[i]? = some true) : (c.spread mask)[i]? = some true :=
  ((spread_marks c mask).2 i).mpr (.inl h)

/-! ### Rounds -/

/-- Where marks are added there are more of them. -/
theorem count_lt {l l' : List Bool} (hlength : l.length = l'.length)
    (hmono : ∀ i : Nat, l[i]? = some true → l'[i]? = some true) :
    l = l' ∨ l.count true < l'.count true := by
  induction l generalizing l' with
  | nil =>
    rw [List.length_nil] at hlength
    exact .inl (List.length_eq_zero_iff.mp hlength.symm).symm
  | cons b l ih =>
    obtain ⟨b', l', rfl⟩ := List.exists_cons_of_length_eq_add_one hlength.symm
    have hhead : b = true → b' = true := fun hb => by
      simpa using hmono 0 (by simpa using hb)
    have htail := ih (by simpa using hlength) fun i hi => by
      simpa using hmono (i + 1) (by simpa using hi)
    rcases htail with rfl | hlt
    · cases b with
      | true => rw [hhead rfl]; exact .inl rfl
      | false =>
        cases b' with
        | true => right; simp
        | false => exact .inl rfl
    · right
      cases b with
      | true => rw [hhead rfl]; simpa using hlt
      | false =>
        cases b' with
        | true => simp; omega
        | false => simpa using hlt

theorem spread_grows (c : FragmentCache) (mask : Array Bool) :
    c.spread mask = mask ∨ mask.toList.count true < (c.spread mask).toList.count true := by
  refine (count_lt ?_ fun i hi => ?_).imp_left fun heq => (Array.toList_inj.mp heq).symm
  · simp [(spread_marks c mask).1]
  · rw [Array.getElem?_toList] at hi ⊢
    exact spread_mono hi

/-- With enough rounds the marks are closed under spreading. -/
theorem spread_spreadAll (c : FragmentCache) (n : Nat) (mask : Array Bool)
    (hn : mask.size ≤ n + mask.toList.count true) :
    c.spread (c.spreadAll n mask) = c.spreadAll n mask := by
  induction n generalizing mask with
  | zero =>
    -- every mark is set already
    refine (spread_grows c mask).resolve_right fun hlt => ?_
    have hle : (c.spread mask).toList.count true ≤ (c.spread mask).toList.length :=
      List.count_le_length
    rw [Array.length_toList, (spread_marks c mask).1] at hle
    omega
  | succ n ih =>
    unfold spreadAll
    dsimp only
    split
    · next hsame => exact hsame
    · next hdiffers =>
      refine ih _ ?_
      have hlt := (spread_grows c mask).resolve_left hdiffers
      rw [(spread_marks c mask).1]
      omega

/-- What holds of the first marks and of all that rounds add holds of all marks. -/
theorem spreadAll_induction {P : Array Bool → Prop}
    (hstep : ∀ mask, P mask → P (c.spread mask)) (n : Nat)
    (h : P mask) : P (c.spreadAll n mask) := by
  induction n generalizing mask with
  | zero => exact h
  | succ n ih =>
    unfold spreadAll
    dsimp only
    split
    · exact h
    · exact ih (hstep mask h)

theorem size_dependents (c : FragmentCache) (id : FragmentId) :
    (c.dependents id).size = c.fragments.size :=
  spreadAll_induction (P := fun mask => mask.size = c.fragments.size)
    (fun mask h => ((spread_marks c mask).1).trans h) _ (by simp)

theorem spread_dependents (c : FragmentCache) (id : FragmentId) :
    c.spread (c.dependents id) = c.dependents id :=
  spread_spreadAll c _ _ (by simp)

theorem place_lt (hf : c.fragment? id = some f) : place id < c.fragments.size :=
  (Array.getElem?_eq_some_iff.mp (fragment?_eq_some.mp hf).2).1

theorem mem_of_fragment? (hf : c.fragment? id = some f) : f ∈ c.fragments.toList :=
  Array.mem_toList_iff.mpr (Array.mem_of_getElem? (fragment?_eq_some.mp hf).2)

/-- A fragment is one of its dependents. -/
theorem marked_dependents_self (hf : c.fragment? id = some f) :
    marked (c.dependents id) id = true := by
  refine marked_iff.mpr (spreadAll_induction (P := fun mask => mask[place id]? = some true)
    (fun mask h => spread_mono h) _ ?_)
  exact getElem?_set!_true.mpr (.inr ⟨by simpa using place_lt hf, rfl⟩)

/-- Whatever depends on a dependent is one, too. -/
theorem closed_dependents (ht : Trees c) (id : FragmentId) :
    Closed c (marked (c.dependents id)) := by
  have hpull : ∀ {j k f}, c.fragment? j = some f → (∃ q, c.cached? k = some q) →
      Pulls (c.dependents id) f (place k) → marked (c.dependents id) k = true := by
    rintro j k f hf ⟨q, hq⟩ hpull
    rw [marked_iff, ← spread_dependents]
    refine ((spread_marks c _).2 _).mpr (.inr ⟨?_, f, ?_, hpull⟩)
    · rw [size_dependents]
      exact place_lt (fragment?_of_cached hq)
    · exact mem_of_fragment? hf
  refine ⟨fun {j f k} hf hD hk => ?_, fun {j f k} hf hD hroot hk => ?_,
    fun {j f t} hf htarget hD => ?_⟩
  · have hj := ht.numbered (fragment?_of_cached hf)
    obtain ⟨q, hq, -⟩ := (ht.children hf).2 k hk
    exact hpull (fragment?_of_cached hf) ⟨q, hq⟩ (.inr ⟨hj ▸ hD, k, List.mem_append_left _ hk, rfl⟩)
  · have hj := ht.numbered (fragment?_of_cached hf)
    obtain ⟨q, hq, -⟩ := (ht.peers hf).2 k hk
    refine hpull (fragment?_of_cached hf) ⟨q, hq⟩
      (.inr ⟨hj ▸ hD, k, List.mem_append_right _ ?_, rfl⟩)
    rwa [if_pos hroot]
  · have hj := ht.numbered (fragment?_of_cached hf)
    refine hpull (fragment?_of_cached hf) ⟨f, hf⟩ (.inl ⟨⟨(cached?_eq_some.mp hf).2, ?_⟩, hj ▸ rfl⟩)
    rw [htarget]
    exact hD

theorem Trees.getElem? (ht : Trees c) {i : Nat} (hi : c.fragments[i]? = some f) :
    f.id.toNat = i + 1 ∧ c.fragment? f.id = some f := by
  have hlt := (Array.getElem?_eq_some_iff.mp hi).1
  have hnat : (i + 1).toUInt32.toNat = i + 1 :=
    UInt32.toNat_ofNat_of_lt' (Nat.lt_of_le_of_lt hlt ht.size)
  have hfound : c.fragment? (i + 1).toUInt32 = some f := by
    refine fragment?_eq_some.mpr ⟨fun hzero => ?_, ?_⟩
    · rw [hzero] at hnat
      exact Nat.succ_ne_zero i hnat.symm
    · rw [place, hnat]
      exact hi
  rw [ht.numbered hfound]
  exact ⟨hnat, hfound⟩

theorem Trees.fragment?_of_mem (ht : Trees c) (hf : f ∈ c.fragments.toList) :
    c.fragment? f.id = some f := by
  obtain ⟨i, hi⟩ := List.mem_iff_getElem?.mp hf
  rw [Array.getElem?_toList] at hi
  exact (ht.getElem? hi).2

/-- No two fragments have the same number. -/
theorem Trees.nodup_ids (ht : Trees c) : (c.fragments.toList.map (·.id)).Nodup := by
  rw [List.Nodup, List.pairwise_map, List.pairwise_iff_getElem]
  intro i j hi hj hlt hsame
  have hfst := (ht.getElem? (i := i) (f := c.fragments.toList[i]) (by simp)).1
  have hsnd := (ht.getElem? (i := j) (f := c.fragments.toList[j]) (by simp)).1
  rw [hsame] at hfst
  omega

/-- Nothing depends on the fragment, whether it is cached or not. -/
def Spent (f : Fragment) : Prop := f.guards = [] ∧ f.children = [] ∧ f.kind ≠ .root

/-- Only cached fragments depend on a cached fragment. -/
theorem cached_of_dependent (ht : Trees c) {q : Fragment} (hid : c.fragment? id = some q)
    (hq : q.cached = true ∨ Spent q)
    {j : FragmentId} (hj : c.fragment? j = some f) (hD : marked (c.dependents id) j = true) :
    f.cached = true ∨ Spent f := by
  -- the mark of a fragment is set on account of one of that place
  have hsame : ∀ {k k' f q}, c.fragment? k = some f → c.fragment? k' = some q →
      place k = place k' → f = q := by
    intro k k' f q hf hq hplace
    obtain rfl := place_inj (fragment?_eq_some.mp hf).1 (fragment?_eq_some.mp hq).1 hplace
    rw [hq] at hf
    exact (Option.some.inj hf).symm
  have hlive : ∀ {k k' f q}, c.fragment? k = some f → c.cached? k' = some q → place k = place k' →
      f.cached = true ∨ Spent f := by
    intro k k' f q hf hq hplace
    rw [hsame hf (fragment?_of_cached hq) hplace]
    exact .inl (cached?_eq_some.mp hq).2
  have hall : ∀ k f, c.fragment? k = some f → (c.dependents id)[place k]? = some true →
      f.cached = true ∨ Spent f := by
    refine spreadAll_induction (P := fun mask => ∀ k f, c.fragment? k = some f →
      mask[place k]? = some true →
      f.cached = true ∨ Spent f) (fun mask ih k f hk hmark => ?_) _ fun k f hk hmark => ?_
    · obtain hmark | ⟨-, f', hf', hpull⟩ := ((spread_marks c mask).2 _).mp hmark
      · exact ih k f hk hmark
      have hf' := ht.fragment?_of_mem hf'
      rcases hpull with ⟨⟨hcached, -⟩, hplace⟩ | ⟨hmarked, k', hk', hplace⟩
      · exact hlive hk (cached?_eq_some.mpr ⟨hf', hcached⟩) hplace
      · rcases ih _ _ hf' (marked_iff.mp hmarked) with hcached | ⟨-, hchildren, hroot⟩
        · have hq := cached?_eq_some.mpr ⟨hf', hcached⟩
          rcases List.mem_append.mp hk' with hk' | hk'
          · obtain ⟨q, hq, -⟩ := (ht.children hq).2 k' hk'
            exact hlive hk hq hplace
          · split at hk'
            · obtain ⟨q, hq, -⟩ := (ht.peers hq).2 k' hk'
              exact hlive hk hq hplace
            · cases hk'
        · rw [listed, hchildren, if_neg hroot] at hk'
          cases hk'
    · obtain hmark | ⟨-, hplace⟩ := getElem?_set!_true.mp hmark
      · rw [Array.getElem?_replicate] at hmark
        split at hmark <;> cases hmark
      · rw [hsame hk hid hplace]
        exact hq
  exact hall j f hj (marked_iff.mp hD)

/-! ### What dependents depend on -/

/-- A fragment's place in the trees, without anything else about it. -/
def outline (f : Fragment) : Fragment :=
  { id := f.id
    key := f.key
    kind := f.kind
    root := f.root
    parent := f.parent
    peers := f.peers
    children := f.children
    treeTarget := f.treeTarget
    cached := f.cached }

theorem map_outline_update {g : Fragment → Fragment} (hg : ∀ f, outline (g f) = outline f) :
    (c.update id g).fragments.map outline = c.fragments.map outline := by
  refine Array.ext_getElem? fun i => ?_
  rw [Array.getElem?_map, Array.getElem?_map, update, Array.getElem?_modify]
  split
  · rw [Option.map_map, show outline ∘ g = outline from funext hg]
  · rfl

theorem dependents_congr {c' : FragmentCache}
    (h : c'.fragments.map outline = c.fragments.map outline) (id : FragmentId) :
    c'.dependents id = c.dependents id := by
  have hspread : ∀ c : FragmentCache, ∀ mask, c.spread mask =
      (c.fragments.map outline).foldl (fun next f =>
      let next := if f.cached && f.treeTarget.any (marked mask)
        then next.set! (place f.id) true else next
      if marked mask f.id then (listed f).foldl (fun next id => next.set! (place id) true) next
          else next) mask := by
    intro c mask
    rw [Array.foldl_map]
    rfl
  have hsize : c'.fragments.size = c.fragments.size := by simpa using congrArg Array.size h
  have hall : ∀ n mask, c'.spreadAll n mask = c.spreadAll n mask := by
    intro n
    induction n with
    | zero => exact fun _ => rfl
    | succ n ih =>
      intro mask
      rw [spreadAll, spreadAll, hspread c', h, ← hspread c]
      rw [ih]
  rw [dependents, dependents, hsize, hall]

end LoopTracer.FragmentCache

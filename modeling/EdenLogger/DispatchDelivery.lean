import EdenLogger.WriterLaws

/-!
# Every dispatch reaches one callback

While a registration of its type is in place, a dispatch finds a count above
zero, the slot of its type and a callback in it, whatever other operations do
in between. It builds one record and runs one callback. Without a callback of
its type a dispatch builds none.
-/

namespace EdenLogger.SinkDispatch

open MachineWord RunRules ListCells SinkRegistry

variable {K : Type} [DecidableEq K] {s s' t : State K} {a : Action K}

/-! ## Beginnings -/

omit [DecidableEq K] in
/-- An available registration is a live one in nobody's hands. -/
theorem available_cases {i : ℕ} {r : SinkRegistration} (h : available s i = some r) :
    busy s i = false ∧ s.sinks.holders[i]? = some ⟨r, .live⟩ := by
  unfold available at h
  split_ifs at h with hb
  exact ⟨by simpa using hb, holder_of_live h⟩

omit [DecidableEq K] in
/-- A writer may take a registration in nobody's hands. -/
theorem free_slot {i : ℕ} (h : busy s i = false) : ∀ j, some i = some j → busy s j = false := by
  intro j hj
  rwa [← Option.some.inj hj]

omit [DecidableEq K] in
/-- A registration in nobody's hands. -/
theorem not_busy {i n : ℕ} {w : Writer K} (h : busy s i = false) (hn : s.writers[n]? = some w)
    (hret : w.pc.isReturned = false) : w.holder ≠ some i := by
  intro hi
  have hb := List.any_eq_false.mp h w (List.mem_of_getElem? hn)
  simp [hret, hi] at hb

/-- Changing the fate of a registration without a callback. -/
theorem WriterOk.refate {i p : ℕ} {fate fate' : Fate} {w : Writer K} (h : WriterOk s.sinks w)
    (hi : s.sinks.holders[i]? = some ⟨⟨p, none⟩, fate⟩) (hne : w.pc.isReturned = false →
      w.holder ≠ some i) : WriterOk (setHolder s.sinks i ⟨p, none⟩ fate') w := by
  refine
    { h with
      range := fun j hj => by
        rw [setHolder, List.length_set]
        exact h.range j hj
      seeks := fun hop hpc => ?_
      made := fun key fate hop hpc => ?_ }
  · obtain ⟨j, q, c, hj, hh, hq⟩ := h.seeks hop hpc
    have hret : w.pc.isReturned = false := by
      rcases hpc with hpc | hpc | ⟨p, hpc⟩ <;> simp [hpc, WriterPc.isReturned]
    have hij : i ≠ j := fun he => hne hret (he ▸ hj)
    exact ⟨j, q, c, hj, (List.getElem?_set_ne hij).trans hh, hq⟩
  · obtain ⟨j, holder, hj, hh, hg, hc⟩ := h.made key fate hop hpc
    obtain ⟨holder', hh', hreg⟩ := exists_cell_set hi (b := ⟨⟨p, none⟩, fate'⟩)
      (p := fun x => x.registration = holder.registration) id ⟨holder, hh, rfl⟩
    exact ⟨j, holder', hj, hh', hreg ▸ hg, hreg ▸ hc⟩

/-- Dropping a registration without a callback. -/
theorem Law.refate (h : Law s) {i p : ℕ} {fate : Fate} (hb : busy s i = false)
    (hi : s.sinks.holders[i]? = some ⟨⟨p, none⟩, fate⟩) (fate' : Fate) :
    Law { s with sinks := setHolder s.sinks i ⟨p, none⟩ fate' } where
  each := fun hn => (h.each hn).refate hi (not_busy hb hn)
  lock := h.lock
  held := h.held
  alone := h.alone
  maker := h.maker
  kept := fun {j holder} hj hc => by
    rcases cell_of_set hj with ⟨rfl, rfl⟩ | ⟨-, hj⟩
    · exact h.kept hi rfl
    · exact h.kept hj hc
  agreed := h.agreed.discard hi fate'
  counted := h.counted

/-- One more operation, before the lock or already turned away. -/
theorem Law.append (h : Law s) {w : Writer K} (hok : WriterOk s.sinks w)
    (hl : w.pc.locked = false) (hfree : ∀ i, w.holder = some i → busy s i = false)
    (hnew : ∀ key fate, w.op = .register key fate → w.holder = none) :
    Law { s with writers := s.writers ++ [w] } := by
  have hold : ∀ {n : ℕ} {w' : Writer K}, s.writers[n]? = some w' →
      (s.writers ++ [w])[n]? = some w' := fun hn =>
    (List.getElem?_append_left (List.getElem?_eq_some_iff.mp hn).1).trans hn
  refine ⟨⟨?_, ?_, ?_, ?_, ?_, ?_⟩, h.agreed, ?_⟩
  · intro n w' hn
    rcases cell_of_append hn with hn | ⟨-, rfl⟩
    · exact h.each hn
    · exact hok
  · intro n w' hn hlocked
    rcases cell_of_append hn with hn | ⟨-, rfl⟩
    · exact h.lock hn hlocked
    · rw [hl] at hlocked
      cases hlocked
  · intro n hlock
    obtain ⟨w', hn, hlocked⟩ := h.held hlock
    exact ⟨w', hold hn, hlocked⟩
  · intro n n' i w₁ w₂ h₁ h₂ hi₁ hi₂ hr₁ hr₂
    rcases cell_of_append h₁ with h₁' | ⟨rfl, rfl⟩
    · rcases cell_of_append h₂ with h₂' | ⟨-, rfl⟩
      · exact h.alone h₁' h₂' hi₁ hi₂ hr₁ hr₂
      · exact absurd hi₁ (not_busy (hfree i hi₂) h₁' hr₁)
    · rcases cell_of_append h₂ with h₂' | ⟨rfl, -⟩
      · exact absurd hi₂ (not_busy (hfree i hi₁) h₂' hr₂)
      · rfl
  · intro n n' i w₁ w₂ key key' fate fate' h₁ h₂ hop₁ hop₂ hi₁ hi₂
    rcases cell_of_append h₁ with h₁' | ⟨-, rfl⟩
    · rcases cell_of_append h₂ with h₂' | ⟨-, rfl⟩
      · exact h.maker h₁' h₂' hop₁ hop₂ hi₁ hi₂
      · rw [hnew key' fate' hop₂] at hi₂
        cases hi₂
    · rw [hnew key fate hop₁] at hi₁
      cases hi₁
  · intro i holder hi hc
    obtain ⟨w', hm, hw⟩ := h.kept hi hc
    exact ⟨w', List.mem_append_left _ hm, hw⟩
  · have hc : counting { s with writers := s.writers ++ [w] } = counting s := by
      unfold counting
      cases hlock : s.lock with
      | none => rfl
      | some n =>
        obtain ⟨w', hn, -⟩ := h.held hlock
        simp only [Option.bind_some, hold hn, hn]
    rw [hc]
    exact h.counted

/-- An operation that found its registration inactive. -/
theorem WriterOk.turned {s : Sinks K} {i : ℕ} {op : WriterOp K}
    (hop : op = .replace i ∨ ∃ fate, op = .release i fate) (hi : i < s.holders.length) :
    WriterOk s ⟨op, .returned false, some i⟩ where
  named := fun j hj => by
    rcases hop with rfl | ⟨fate, rfl⟩ <;> rcases hj with hj | ⟨fate', hj⟩ <;> cases hj <;> rfl
  range := fun j hj => by
    cases hj
    exact hi
  seeks := fun _ hq => by rcases hq with hq | hq | ⟨p, hq⟩ <;> cases hq
  unmade := fun key fate _ hq => by rcases hq with hq | hq | ⟨p, hq⟩ <;> cases hq
  empty := fun key fate p _ hq => by cases hq
  made := fun key fate _ hq => by rcases hq with hq | hq | hq <;> cases hq
  counts := fun j _ hq => by cases hq

/-- An operation on an active registration, before the lock. -/
theorem WriterOk.waiting {s : Sinks K} {i p c : ℕ} {op : WriterOp K}
    (hop : op = .replace i ∨ ∃ fate, op = .release i fate)
    (hi : s.holders[i]? = some ⟨⟨p, some c⟩, .live⟩) : WriterOk s ⟨op, .lock, some i⟩ where
  named := fun j hj => by
    rcases hop with rfl | ⟨fate, rfl⟩ <;> rcases hj with hj | ⟨fate', hj⟩ <;> cases hj <;> rfl
  range := fun j hj => by
    cases hj
    exact (List.getElem?_eq_some_iff.mp hi).1
  seeks := fun _ _ => ⟨i, p, c, rfl, hi, fun q hq => by cases hq⟩
  unmade := fun key fate hr _ => by rcases hop with rfl | ⟨fate', rfl⟩ <;> cases hr
  empty := fun key fate p _ hq => by cases hq
  made := fun key fate _ hq => by rcases hq with hq | hq | hq <;> cases hq
  counts := fun j _ hq => by cases hq

/-- A registration that is being made. -/
theorem WriterOk.fresh {s : Sinks K} (key : K) (fate : Fate) :
    WriterOk s ⟨.register key fate, .lock, none⟩ where
  named := fun j hj => by rcases hj with hj | ⟨fate', hj⟩ <;> cases hj
  range := fun j hj => by cases hj
  seeks := fun hno _ => absurd rfl (hno key fate)
  unmade := fun _ _ _ _ => rfl
  empty := fun key fate p _ hq => by cases hq
  made := fun key fate _ hq => by rcases hq with hq | hq | hq <;> cases hq
  counts := fun j hj => by cases hj

/-- The beginning of an operation keeps the law. -/
theorem Law.begin (h : Law s) {op : WriterOp K} (hs : beginOp s op = some s') : Law s' := by
  unfold beginOp at hs
  cases op with
  | register key fate =>
    simp only at hs
    split_ifs at hs
    cases hs
    exact h.append (WriterOk.fresh key fate) rfl (fun i hi => by cases hi) fun _ _ _ => rfl
  | replace i =>
    obtain ⟨⟨p, callback⟩, hr, rfl⟩ := Option.map_eq_some_iff.mp hs
    obtain ⟨hb, hi⟩ := available_cases hr
    have hlt := (List.getElem?_eq_some_iff.mp hi).1
    cases callback with
    | none =>
      exact h.append (WriterOk.turned (Or.inl rfl) hlt) rfl (free_slot hb)
        fun _ _ hop => by cases hop
    | some c =>
      exact h.append (WriterOk.waiting (Or.inl rfl) hi) rfl (free_slot hb)
        fun _ _ hop => by cases hop
  | release i fate =>
    obtain ⟨⟨p, callback⟩, hr, rfl⟩ := Option.map_eq_some_iff.mp hs
    obtain ⟨hb, hi⟩ := available_cases hr
    have hlt := (List.getElem?_eq_some_iff.mp hi).1
    cases callback with
    | none =>
      have hset : i < (setHolder s.sinks i ⟨p, none⟩ fate).holders.length := by
        rw [setHolder, List.length_set]
        exact hlt
      exact (h.refate hb hi fate).append (WriterOk.turned (Or.inr ⟨fate, rfl⟩) hset) rfl
        (free_slot hb) fun _ _ hop => by cases hop
    | some c =>
      exact h.append (WriterOk.waiting (Or.inr ⟨fate, rfl⟩) hi) rfl (free_slot hb)
        fun _ _ hop => by cases hop

/-! ## Every step -/

/-- A change of the caches and the dispatches. -/
theorem Law.caches (h : Law s) {caches : List (List (K × ℕ))}
    (ha : Agreed { s.sinks with caches := caches }) (dispatches : List (Dispatch K)) :
    Law { s with sinks.caches := caches, dispatches := dispatches } where
  each := fun hn => { h.each hn with }
  lock := h.lock
  held := h.held
  alone := h.alone
  maker := h.maker
  kept := h.kept
  agreed := ha
  counted := h.counted

/-- A dispatch's step leaves the caches correct. -/
theorem Law.dispatched (h : Law s) {d : Dispatch K} {e : List (List (K × ℕ)) × Dispatch K}
    (he : dispatchStep s d = some e) : Agreed { s.sinks with caches := e.1 } := by
  unfold dispatchStep at he
  split at he
  · cases he
    exact h.agreed
  · obtain ⟨cache, -, rfl⟩ := Option.map_eq_some_iff.mp he
    exact h.agreed
  · split_ifs at he
    obtain ⟨cache, hc, rfl⟩ := Option.map_eq_some_iff.mp he
    cases hg : s.sinks.registry.get d.key with
    | none =>
      simp only [resolveSink_none h.agreed.wellformed hg, set_self hc]
      exact h.agreed
    | some p =>
      simp only [resolveSink_some h.agreed.wellformed hg]
      exact h.agreed.cache hc hg
  · cases he
    exact h.agreed
  · cases he
    exact h.agreed
  · cases he
    exact h.agreed
  · cases he

/-- Every step keeps the law. -/
theorem Law.step (h : Law s) (hs : step s a = some s') : Law s' := by
  cases a with
  | spawn =>
    cases hs
    exact h.caches h.agreed.spawn s.dispatches
  | begin op => exact h.begin hs
  | write n =>
    obtain ⟨w, hn, hs⟩ := Option.bind_eq_some_iff.mp hs
    exact h.write hn (h.toWriterLaw.move h.agreed hn hs)
  | dispatch thread key =>
    simp only [SinkDispatch.step] at hs
    split_ifs at hs
    cases hs
    exact h.caches h.agreed _
  | advance i =>
    obtain ⟨d, hd, hs⟩ := Option.bind_eq_some_iff.mp hs
    obtain ⟨e, he, rfl⟩ := Option.map_eq_some_iff.mp hs
    exact h.caches (h.dispatched he) _

/-- The law at process start. -/
theorem Law.init (K : Type) [DecidableEq K] : Law (State.init K) where
  each := fun hn => by cases hn
  lock := fun hn => by cases hn
  held := fun hl => by cases hl
  alone := fun hn => by cases hn
  maker := fun hn => by cases hn
  kept := fun hi => by cases hi
  agreed := (Consistent.new K).toAgreed
  counted := (Consistent.new K).count

/-- The law in every reachable state. -/
theorem law (h : Reach step (State.init K) s) : Law s :=
  ReachWhile.invariant (Law.init K) (fun _ _ _ ht _ hu => ht.step hu) h

/-! ## Writers and dispatches from one state to the next -/

/-- A writer's step changes that writer only and keeps what it does. -/
theorem writerStep_writers {n : ℕ} {w : Writer K} (hs : writerStep s n w = some s') :
    w.pc.isReturned = false ∧ s'.dispatches = s.dispatches ∧
      ∃ w', s'.writers = s.writers.set n w' ∧ w'.op = w.op := by
  unfold writerStep at hs
  split at hs
  case h_1 hpc =>
    rw [hpc]
    split_ifs at hs <;> cases hs <;> exact ⟨rfl, rfl, _, rfl, rfl⟩
  case h_2 hpc =>
    rw [hpc]
    obtain ⟨e, -, rfl⟩ := Option.map_eq_some_iff.mp hs
    exact ⟨rfl, rfl, _, rfl, rfl⟩
  case h_6 => cases hs
  all_goals
    rename_i hpc
    rw [hpc]
    cases hs
    exact ⟨rfl, rfl, _, rfl, rfl⟩

omit [DecidableEq K] in
/-- A beginning adds a writer and leaves the registry. -/
theorem beginOp_writers {op : WriterOp K} (hs : beginOp s op = some s') :
    s'.dispatches = s.dispatches ∧ s'.sinks.registry = s.sinks.registry ∧
      ∃ w, w.op = op ∧ s'.writers = s.writers ++ [w] := by
  unfold beginOp at hs
  cases op with
  | register key fate =>
    simp only at hs
    split_ifs at hs
    cases hs
    exact ⟨rfl, rfl, _, rfl, rfl⟩
  | replace i =>
    obtain ⟨r, -, rfl⟩ := Option.map_eq_some_iff.mp hs
    exact ⟨rfl, rfl, _, rfl, rfl⟩
  | release i fate =>
    obtain ⟨r, -, rfl⟩ := Option.map_eq_some_iff.mp hs
    split_ifs <;> exact ⟨rfl, rfl, _, rfl, rfl⟩

/-- What a step leaves alone. -/
structure StepFrame (s : State K) (a : Action K) (s' : State K) : Prop where
  /-- Writers that returned stay as they are. -/
  returned : ∀ {n : ℕ} {w : Writer K}, s.writers[n]? = some w → w.pc.isReturned = true →
    s'.writers[n]? = some w
  /-- Only a beginning adds an operation. -/
  op : ∀ {w' : Writer K}, w' ∈ s'.writers →
    (∃ w ∈ s.writers, w.op = w'.op) ∨ a = .begin w'.op
  /-- Entries stay. -/
  get : ∀ {key : K} {p : ℕ}, s.sinks.registry.get key = some p →
    s'.sinks.registry.get key = some p
  /-- Dispatches move by their own steps. -/
  dispatch : ∀ {i : ℕ} {d : Dispatch K}, s.dispatches[i]? = some d →
    s'.dispatches[i]? = some d ∨
      a = .advance i ∧ ∃ e, dispatchStep s d = some e ∧ s'.dispatches[i]? = some e.2

/-- Entries outlive a writer's move. -/
theorem WriterMove.get {n : ℕ} {w : Writer K} (hm : WriterMove s n w s') {key : K} {p : ℕ}
    (hp : s.sinks.registry.get key = some p) : s'.sinks.registry.get key = some p := by
  cases hm with
  | allocate hpc hop hg he => exact hg.mono hp
  | count hpc =>
    rw [countSlot_get]
    exact hp
  | _ => exact hp

/-- Every step keeps to its own. -/
theorem Law.frame (h : Law s) (hs : SinkDispatch.step s a = some s') : StepFrame s a s' := by
  cases a with
  | spawn =>
    cases hs
    exact ⟨fun hn _ => hn, fun hm => Or.inl ⟨_, hm, rfl⟩, id, Or.inl⟩
  | begin op =>
    obtain ⟨hd, hreg, w, hop, hw⟩ := beginOp_writers (s := s) hs
    refine ⟨fun hn _ => ?_, fun hm => ?_, fun hp => ?_, fun hi => Or.inl ?_⟩
    · rw [hw]
      exact (List.getElem?_append_left (List.getElem?_eq_some_iff.mp hn).1).trans hn
    · rw [hw, List.mem_append, List.mem_singleton] at hm
      rcases hm with hm | rfl
      · exact Or.inl ⟨_, hm, rfl⟩
      · exact Or.inr (by rw [hop])
    · rw [hreg]
      exact hp
    · rw [hd]
      exact hi
  | write n =>
    obtain ⟨w, hn, hs⟩ := Option.bind_eq_some_iff.mp hs
    obtain ⟨hret, hd, w', hw, hop⟩ := writerStep_writers hs
    refine ⟨fun {n' w''} hn' hr => ?_, fun {w''} hm => Or.inl ?_,
      (h.toWriterLaw.move h.agreed hn hs).get, fun hi => Or.inl ?_⟩
    · have hne : n ≠ n' := by
        rintro rfl
        cases hn.symm.trans hn'
        rw [hret] at hr
        cases hr
      rw [hw, List.getElem?_set_ne hne]
      exact hn'
    · rw [hw] at hm
      rcases List.mem_or_eq_of_mem_set hm with hm | rfl
      · exact ⟨w'', hm, rfl⟩
      · exact ⟨w, List.mem_of_getElem? hn, hop.symm⟩
    · rw [hd]
      exact hi
  | dispatch thread key =>
    simp only [SinkDispatch.step] at hs
    split_ifs at hs
    cases hs
    refine ⟨fun hn _ => hn, fun hm => Or.inl ⟨_, hm, rfl⟩, id, fun hi => Or.inl ?_⟩
    exact (List.getElem?_append_left (List.getElem?_eq_some_iff.mp hi).1).trans hi
  | advance j =>
    obtain ⟨d, hd, hs⟩ := Option.bind_eq_some_iff.mp hs
    obtain ⟨e, he, rfl⟩ := Option.map_eq_some_iff.mp hs
    refine ⟨fun hn _ => hn, fun hm => Or.inl ⟨_, hm, rfl⟩, id, fun {i d'} hi => ?_⟩
    by_cases hij : j = i
    · subst hij
      cases hd.symm.trans hi
      exact Or.inr ⟨rfl, e, he, List.getElem?_set_self (List.getElem?_eq_some_iff.mp hi).1⟩
    · exact Or.inl ((List.getElem?_set_ne hij).trans hi)

/-! ## A registration in place -/

/-- A registration was made for the type, and nobody began to release it. -/
def Registered (s : State K) (key : K) (k : ℕ) : Prop :=
  (∃ (n : ℕ) (fate : Fate), s.writers[n]? = some ⟨.register key fate, .returned true, some k⟩) ∧
    ∀ w ∈ s.writers, ∀ fate, w.op ≠ .release k fate

/-- Steps that do not begin to release the registration. -/
def sparing (k : ℕ) (_ : State K) (a : Action K) : Prop :=
  ∀ fate, a ≠ .begin (.release k fate)

/-- A registration stays in place until its release begins. -/
theorem Registered.step {key : K} {k : ℕ} (hr : Registered s key k)
    (hf : StepFrame s a s') (ha : sparing k s a) : Registered s' key k := by
  obtain ⟨⟨n, fate, hn⟩, hno⟩ := hr
  refine ⟨⟨n, fate, hf.returned hn rfl⟩, fun w hw fate' hop => ?_⟩
  rcases hf.op hw with ⟨w', hm, he⟩ | hb
  · exact hno w' hm fate' (he.trans hop)
  · exact ha fate' (by rw [hb, hop])

/-- Its slot is occupied. -/
theorem Law.occupant (h : Law s) {key : K} {k : ℕ} (hr : Registered s key k) :
    ∃ p c fate, s.sinks.holders[k]? = some ⟨⟨p, some c⟩, fate⟩ ∧
      s.sinks.registry.get key = some p ∧ s.sinks.registry.active p = some c := by
  obtain ⟨⟨n, fate, hn⟩, hno⟩ := hr
  obtain ⟨i, holder, hi, hh, hg, -⟩ := (h.each hn).made key fate rfl (Or.inr (Or.inr rfl))
  cases hi
  obtain ⟨⟨p, callback⟩, fate'⟩ := holder
  cases callback with
  | none =>
    obtain ⟨w, hm, fate', hop⟩ := h.kept hh rfl
    exact absurd hop (hno w hm fate')
  | some c => exact ⟨p, c, fate', hh, hg, h.agreed.registration hh rfl⟩

/-- The count is not zero. -/
theorem Law.count_pos (h : Law s) {key : K} {k : ℕ} (hr : Registered s key k) :
    s.sinks.registry.activeSinks ≠ 0 := by
  obtain ⟨p, c, fate, hh, -, hp⟩ := h.occupant hr
  have hone := occupied_pos hp
  have hc := h.counted
  obtain ⟨⟨n, fate', hn⟩, -⟩ := hr
  cases hcounting : counting s with
  | none =>
    rw [hcounting] at hc
    exact ne_of_gt (hone.trans_eq hc.symm)
  | some op =>
    rw [hcounting] at hc
    cases op with
    | replace i => exact ne_of_gt (hone.trans_eq hc.symm)
    | release i fate₀ => exact ne_of_gt (by rw [hc.1]; exact Nat.succ_pos _)
    | register key₀ fate₀ =>
      -- the registration that is not counted yet has another slot
      obtain ⟨w, hw, hif⟩ := Option.bind_eq_some_iff.mp hcounting
      obtain ⟨m, -, hm⟩ := Option.bind_eq_some_iff.mp hw
      split_ifs at hif with hpc
      have hop := Option.some.inj hif
      obtain ⟨j, ⟨⟨q, callback⟩, fate₁⟩, hj, hh', -, hsome⟩ :=
        (h.each hm).made key₀ fate₀ hop (Or.inl hpc)
      obtain ⟨c', rfl⟩ := Option.ne_none_iff_exists'.mp (hsome hpc)
      have hq := h.agreed.registration hh' rfl
      have hne : q ≠ p := by
        rintro rfl
        cases hp.symm.trans hq
        cases h.agreed.distinct hh hh' rfl rfl
        cases h.maker hn hm rfl hop rfl hj
        cases hn.symm.trans hm
        cases hpc
      have htwo := occupied_two hp hq hne
      have hc' : s.sinks.registry.activeSinks + 1 = occupied s.sinks.registry := hc
      omega

/-! ## A dispatch on its way -/

/-- What a dispatch has done when its type's slot is `p`. -/
def Delivering (p : ℕ) (seen : ℕ → Prop) (d : Dispatch K) : Prop :=
  match d.pc with
  | .loadCount | .findCached | .readRegistry => d.builds = 0 ∧ d.calls = []
  | .loadCallback q => q = p ∧ d.builds = 0 ∧ d.calls = []
  | .build c => seen c ∧ d.builds = 0 ∧ d.calls = []
  | .call c => seen c ∧ d.builds = 1 ∧ d.calls = []
  | .returned => d.builds = 1 ∧ ∃ c, d.calls = [c] ∧ seen c

/-- What a dispatch has done when its type has no callback. -/
def Skipping (s : State K) (d : Dispatch K) : Prop :=
  d.builds = 0 ∧ match d.pc with
  | .loadCallback q => s.sinks.registry.get d.key = some q
  | .build _ | .call _ => False
  | _ => True

/-- A cached slot is the map's. -/
theorem Law.found (h : Law s) {d : Dispatch K} {cache : List (K × ℕ)} {e : K × ℕ}
    (hc : s.sinks.caches[d.thread]? = some cache)
    (he : (cache.find? fun e => decide (e.1 = d.key)) = some e) :
    s.sinks.registry.get d.key = some e.2 := by
  have hkey : e.1 = d.key := by simpa using List.find?_some he
  rw [← hkey]
  exact h.agreed.cached cache (List.mem_of_getElem? hc) e (List.mem_of_find?_eq_some he)

/-- A dispatch's step in a state whose slot is occupied. -/
theorem Law.deliver (h : Law s) {p c : ℕ} {seen : ℕ → Prop} {d : Dispatch K}
    {e : List (List (K × ℕ)) × Dispatch K} (hd : Delivering p seen d)
    (hg : s.sinks.registry.get d.key = some p) (hp : s.sinks.registry.active p = some c)
    (hcount : s.sinks.registry.activeSinks ≠ 0) (hc : seen c)
    (he : dispatchStep s d = some e) : Delivering p seen e.2 ∧ e.2.key = d.key := by
  obtain ⟨thread, key, pc, builds, calls⟩ := d
  cases pc with
  | loadCount =>
    simp only [dispatchStep, if_neg hcount, Option.some.injEq] at he
    subst he
    exact ⟨hd, rfl⟩
  | findCached =>
    obtain ⟨cache, hcache, rfl⟩ := Option.map_eq_some_iff.mp he
    refine ⟨?_, rfl⟩
    cases hf : cache.find? fun e => decide (e.1 = key) with
    | none =>
      simp only [Delivering]
      exact hd
    | some e =>
      have hq := h.found (d := ⟨thread, key, .findCached, builds, calls⟩) hcache hf
      simp only [Delivering]
      exact ⟨Option.some.inj (hq.symm.trans hg), hd⟩
  | readRegistry =>
    simp only [dispatchStep] at he
    split_ifs at he
    obtain ⟨cache, hcache, rfl⟩ := Option.map_eq_some_iff.mp he
    simp only [resolveSink_some h.agreed.wellformed hg]
    exact ⟨⟨rfl, hd⟩, trivial⟩
  | loadCallback q =>
    obtain ⟨rfl, hd⟩ := hd
    simp only [dispatchStep, hp, Option.some.injEq] at he
    subst he
    exact ⟨⟨hc, hd⟩, rfl⟩
  | build c' =>
    obtain ⟨hs, hb, hcalls⟩ := hd
    cases he
    exact ⟨⟨hs, congrArg (· + 1) hb, hcalls⟩, rfl⟩
  | call c' =>
    obtain ⟨hs, hb, hcalls⟩ := hd
    cases he
    exact ⟨⟨hb, c', congrArg (· ++ [c']) hcalls, hs⟩, rfl⟩
  | returned => cases he

/-- A dispatch's step in a state whose type has no callback. -/
theorem Law.skip (h : Law s) {d : Dispatch K} {e : List (List (K × ℕ)) × Dispatch K}
    (hd : Skipping s d) (hno : s.sinks.registry.installed d.key = none)
    (he : dispatchStep s d = some e) : Skipping s e.2 ∧ e.2.key = d.key := by
  obtain ⟨thread, key, pc, builds, calls⟩ := d
  obtain ⟨hb, hd⟩ := hd
  cases pc with
  | loadCount =>
    cases he
    refine ⟨⟨hb, ?_⟩, rfl⟩
    split_ifs <;> trivial
  | findCached =>
    obtain ⟨cache, hcache, rfl⟩ := Option.map_eq_some_iff.mp he
    refine ⟨⟨hb, ?_⟩, rfl⟩
    cases hf : cache.find? fun e => decide (e.1 = key) with
    | none => trivial
    | some e => exact h.found (d := ⟨thread, key, .findCached, builds, calls⟩) hcache hf
  | readRegistry =>
    simp only [dispatchStep] at he
    split_ifs at he
    obtain ⟨cache, hcache, rfl⟩ := Option.map_eq_some_iff.mp he
    cases hg : s.sinks.registry.get key with
    | none =>
      simp only [resolveSink_none h.agreed.wellformed hg]
      exact ⟨⟨hb, trivial⟩, trivial⟩
    | some p =>
      simp only [resolveSink_some h.agreed.wellformed hg]
      exact ⟨⟨hb, hg⟩, trivial⟩
  | loadCallback q =>
    -- the slot of a type without a callback is empty
    have hq : s.sinks.registry.active q = none := by
      rw [Registry.installed, show s.sinks.registry.get key = some q from hd] at hno
      exact hno
    simp only [dispatchStep, hq, Option.some.injEq] at he
    subst he
    exact ⟨⟨hb, trivial⟩, rfl⟩
  | build c => exact hd.elim
  | call c => exact hd.elim
  | returned => cases he

omit [DecidableEq K] in
/-- What was seen stays seen. -/
theorem Delivering.mono {p : ℕ} {seen seen' : ℕ → Prop} (hs : ∀ c, seen c → seen' c)
    {d : Dispatch K} (h : Delivering p seen d) : Delivering p seen' d := by
  obtain ⟨thread, key, pc, builds, calls⟩ := d
  cases pc with
  | build c => exact ⟨hs c h.1, h.2⟩
  | call c => exact ⟨hs c h.1, h.2⟩
  | returned =>
    obtain ⟨hb, c, hcalls, hc⟩ := h
    exact ⟨hb, c, hcalls, hs c hc⟩
  | _ => exact h

/-! ## Whole dispatches -/

/-- A callback that was the type's active one in some state of a run from `s` to `t`. -/
def ActiveBetween (ok : State K → Action K → Prop) (s : State K) (key : K) (t : State K)
    (c : ℕ) : Prop :=
  ∃ u, ReachWhile step ok s u ∧ ReachWhile step ok u t ∧ u.sinks.registry.installed key = some c

/-- A registration that stays in place along a run. -/
theorem Law.registered (h : Law s) {key : K} {k p : ℕ} (hr : Registered s key k)
    (hp : s.sinks.registry.get key = some p) (hrun : ReachWhile SinkDispatch.step (sparing k) s t) :
    Law t ∧ Registered t key k ∧ t.sinks.registry.get key = some p := by
  refine hrun.invariant (I := fun t => Law t ∧ Registered t key k ∧
    t.sinks.registry.get key = some p) ⟨h, hr, hp⟩ ?_
  rintro t u a ⟨ht, hr, hp⟩ ha hu
  have hframe := ht.frame hu
  exact ⟨ht.step hu, hr.step hframe ha, hframe.get hp⟩

/-- A dispatch of a type whose registration stays in place. -/
theorem Law.delivering (h : Law s) {key : K} {k i p : ℕ} (hr : Registered s key k)
    (hp : s.sinks.registry.get key = some p) {d : Dispatch K} (hi : s.dispatches[i]? = some d)
    (hkey : d.key = key) (hd : Delivering p (ActiveBetween (sparing k) s key s) d)
    (hrun : ReachWhile SinkDispatch.step (sparing k) s t) :
    ∃ d', t.dispatches[i]? = some d' ∧ d'.key = key ∧
      Delivering p (ActiveBetween (sparing k) s key t) d' := by
  refine hrun.invariant_using (J := ReachWhile SinkDispatch.step (sparing k) s) (fun _ hu => hu)
    (I := fun t => ∃ d', t.dispatches[i]? = some d' ∧ d'.key = key ∧
      Delivering p (ActiveBetween (sparing k) s key t) d') ⟨d, hi, hkey, hd⟩ ?_
  rintro t u a hrun - ⟨d, hi, rfl, hd⟩ ha hu
  obtain ⟨ht, hr, hp⟩ := h.registered hr hp hrun
  have hnext : ReachWhile SinkDispatch.step (sparing k) t u := ReachWhile.refl.next ha hu
  have hlater : ∀ c, ActiveBetween (sparing k) s d.key t c →
      ActiveBetween (sparing k) s d.key u c := fun c ⟨v, hv, hvt, hc⟩ =>
    ⟨v, hv, hvt.trans hnext, hc⟩
  rcases (ht.frame hu).dispatch hi with hi | ⟨-, e, he, hi⟩
  · exact ⟨d, hi, rfl, hd.mono hlater⟩
  · -- the callback that is active now is the one a load would find
    obtain ⟨q, c, -, -, hg, hc⟩ := ht.occupant hr
    cases hp.symm.trans hg
    have hinstalled : t.sinks.registry.installed d.key = some c := by
      rw [Registry.installed, hp]
      exact hc
    obtain ⟨hd', hk'⟩ := ht.deliver hd hp hc (ht.count_pos hr)
      ⟨t, hrun, ReachWhile.refl, hinstalled⟩ he
    exact ⟨e.2, hi, hk', hd'.mono hlater⟩

/-- Steps from states in which the type has no callback. -/
def uninstalled (key : K) (s : State K) (_ : Action K) : Prop :=
  s.sinks.registry.installed key = none

/-- A dispatch of a type without a callback. -/
theorem Law.skipping (h : Law s) {i : ℕ} {d : Dispatch K} (hi : s.dispatches[i]? = some d)
    (hd : Skipping s d) (hrun : ReachWhile SinkDispatch.step (uninstalled d.key) s t) :
    ∃ d', t.dispatches[i]? = some d' ∧ Skipping t d' := by
  have hall : Law t ∧ ∃ d', t.dispatches[i]? = some d' ∧ d'.key = d.key ∧ Skipping t d' := by
    refine hrun.invariant (I := fun t => Law t ∧ ∃ d', t.dispatches[i]? = some d' ∧
      d'.key = d.key ∧ Skipping t d') ⟨h, d, hi, rfl, hd⟩ ?_
    rintro t u a ⟨ht, d', hi, hkey, hd⟩ hno hu
    have hframe := ht.frame hu
    have hlater : ∀ {d : Dispatch K}, Skipping t d → Skipping u d := by
      rintro ⟨thread, key, pc, builds, calls⟩ ⟨hb, hq⟩
      refine ⟨hb, ?_⟩
      cases pc with
      | loadCallback q => exact hframe.get hq
      | _ => exact hq
    refine ⟨ht.step hu, ?_⟩
    rcases hframe.dispatch hi with hi | ⟨-, e, he, hi⟩
    · exact ⟨d', hi, hkey, hlater hd⟩
    · obtain ⟨hd', hk'⟩ := ht.skip hd (by rw [hkey]; exact hno) he
      exact ⟨e.2, hi, hk'.trans hkey, hlater hd'⟩
  obtain ⟨-, d', hi', -, hd'⟩ := hall
  exact ⟨d', hi', hd'⟩

/-- In every run, a dispatch that begins after the registration of its type
returned and ends before that registration's release begins builds one record
and runs one callback, active at some moment in between. A dispatch during
which no callback of its type is installed builds none. -/
theorem dispatch_exactly_once {thread : ℕ} {key : K} (h : Reach step (State.init K) s)
    (hs : step s (.dispatch thread key) = some s') :
    (∀ (k : ℕ) (t : State K) (d : Dispatch K), Registered s key k →
      ReachWhile step (sparing k) s' t → t.dispatches[s.dispatches.length]? = some d →
      d.pc = .returned → d.builds = 1 ∧ ∃ c, d.calls = [c] ∧
        ActiveBetween (sparing k) s' key t c) ∧
    ∀ (t : State K) (d : Dispatch K), ReachWhile step (uninstalled key) s' t →
      t.dispatches[s.dispatches.length]? = some d → d.builds = 0 := by
  have hlaw := law h
  have hframe := hlaw.frame hs
  have hlaw' := hlaw.step hs
  have hi : s'.dispatches[s.dispatches.length]? = some ⟨thread, key, .loadCount, 0, []⟩ := by
    simp only [step] at hs
    split_ifs at hs
    cases hs
    exact List.getElem?_concat_length
  refine ⟨fun k t d hr hrun hd hpc => ?_, fun t d hrun hd => ?_⟩
  · obtain ⟨p, c, fate, -, hp, -⟩ := hlaw.occupant hr
    have hr' : Registered s' key k := hr.step hframe fun fate hc => by cases hc
    obtain ⟨d', hd', -, hdelivering⟩ := hlaw'.delivering hr' (hframe.get hp) hi rfl ⟨rfl, rfl⟩ hrun
    cases hd.symm.trans hd'
    rw [Delivering, hpc] at hdelivering
    exact hdelivering
  · obtain ⟨d', hd', hskipping⟩ := hlaw'.skipping hi ⟨rfl, trivial⟩ hrun
    cases hd.symm.trans hd'
    exact hskipping.1

/-- Type seven's sink is registered next to one of type nine. -/
def installing : List (Action ℕ) :=
  [.spawn, .begin (.register 7 .live), .write 0, .write 0, .write 0, .write 0, .write 0,
    .begin (.register 9 .live), .write 1, .write 1, .write 1, .write 1, .write 1]

/-- During a dispatch the sink is replaced and the other one is released. -/
def replacing : List (Action ℕ) :=
  [.begin (.release 1 .dropped), .advance 0, .begin (.replace 0), .write 2, .write 2, .write 2,
    .advance 0, .write 2, .write 2, .advance 0, .write 3, .write 3, .write 3, .write 3, .advance 0,
    .advance 0, .advance 0]

/-- The condition on its steps as a check. -/
def sparingCheck (k : ℕ) (_ : State ℕ) (a : Action ℕ) : Bool :=
  match a with
  | .begin (.release i _) => decide (i ≠ k)
  | _ => true

/-- The check means what it says. -/
theorem sparing_of_check (k : ℕ) (s : State ℕ) (a : Action ℕ) (h : sparingCheck k s a = true) :
    sparing k s a := by
  rintro fate rfl
  simp [sparingCheck] at h

/-- Type seven's registration is in place. -/
def inPlace (s : State ℕ) : Bool :=
  decide (s.writers[0]? = some ⟨.register 7 .live, .returned true, some 0⟩ ∧
    s.writers.map Writer.op = [.register 7 .live, .register 9 .live])

/-- The dispatch ran the replacement. -/
def delivered (t : State ℕ) : Bool :=
  (t.dispatches[0]?).any fun d => decide (d.pc = .returned ∧ d.calls = [2])

/-- The dispatch runs the replacement, once. -/
theorem dispatch_exactly_once_replaced : ∃ (s s' t : State ℕ) (d : Dispatch ℕ),
    Reach step (State.init ℕ) s ∧ step s (.dispatch 0 7) = some s' ∧ Registered s 7 0 ∧
    ReachWhile step (sparing 0) s' t ∧ t.dispatches[s.dispatches.length]? = some d ∧
    d.builds = 1 ∧ (∃ c, d.calls = [c] ∧ ActiveBetween (sparing 0) s' 7 t c) ∧ d.calls = [2] := by
  obtain ⟨s, hs, hp⟩ := exists_reach step (State.init ℕ) installing
    (fun s => inPlace s && decide (s.dispatches.length = 0) && (step s (.dispatch 0 7)).any
      fun s' => (replay step (sparingCheck 0) s' replacing).any delivered) (by decide +kernel)
  simp only [Bool.and_eq_true, inPlace, decide_eq_true_eq] at hp
  obtain ⟨⟨⟨hn, hops⟩, hlen⟩, hrun⟩ := hp
  obtain ⟨s', hs', hrun⟩ := (Option.any_eq_true _ _).mp hrun
  obtain ⟨t, ht, hd⟩ := exists_reach_of_replay step (sparing_of_check 0) s' replacing _ hrun
  obtain ⟨d, hi, hd⟩ := (Option.any_eq_true _ _).mp hd
  obtain ⟨hpc, hcalls⟩ := of_decide_eq_true hd
  have hr : Registered s 7 0 := by
    refine ⟨⟨0, .live, hn⟩, fun w hw fate hop => ?_⟩
    have hm : w.op ∈ s.writers.map Writer.op := List.mem_map_of_mem hw
    rw [hops, hop] at hm
    simp at hm
  rw [← hlen] at hi
  obtain ⟨hb, hc⟩ := (dispatch_exactly_once hs hs').1 0 t d hr ht hi hpc
  exact ⟨s, s', t, d, hs, hs', hr, ht, hi, hb, hc, hcalls⟩

end EdenLogger.SinkDispatch

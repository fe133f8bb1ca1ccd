import EdenLogger.RoundRobin
import Mathlib.Algebra.Order.BigOperators.Group.List
import Mathlib.Data.List.Nodup
import Mathlib.Data.List.Pairwise

/-!
# Places of a round-robin drain

Where a drain puts each element of each queue. The place follows from the
lengths of the queues alone. Places are a numbering of the elements that keeps
the order of every queue, and the passes before an element bound its place,
however long the other queues are.
-/

namespace EdenLogger.RoundRobin

variable {α : Type*} {quantum : ℕ}

/-- What one pass takes from queues of these lengths. -/
def passSize (quantum : ℕ) (lengths : List ℕ) : ℕ := (lengths.map (min quantum)).sum

/-- Where the drain puts the `k`-th element that round `r` takes from queue `j`. -/
def placeIn (quantum : ℕ) : ℕ → List ℕ → ℕ → ℕ → ℕ
  | 0, lengths, j, k => passSize quantum (lengths.take j) + k
  | r + 1, lengths, j, k =>
    passSize quantum lengths + placeIn quantum r (lengths.map (· - quantum)) j k

/-- Where the drain puts the `i`-th element of queue `j`. -/
def place (quantum : ℕ) (lengths : List ℕ) (j i : ℕ) : ℕ :=
  placeIn quantum (i / quantum) lengths j (i % quantum)

/-- The `i`-th element of queue `j`. -/
def element (queues : List (List α)) (j i : ℕ) : Option α := (queues[j]?).bind fun q => q[i]?

/-- The output holds every element of every queue at one place, those of a
queue in its order, and nothing else. -/
structure Interleaves (queues : List (List α)) (output : List α) (place : ℕ → ℕ → ℕ) : Prop where
  at_place : ∀ j i x, element queues j i = some x → output[place j i]? = some x
  ordered : ∀ j i i', i < i' → (element queues j i').isSome → place j i < place j i'
  onto : ∀ n < output.length, ∃ j i, (element queues j i).isSome ∧ place j i = n
  unique : ∀ j i j' i', (element queues j i).isSome → (element queues j' i').isSome →
    place j i = place j' i' → j = j' ∧ i = i'

/-- A pass takes what the lengths allow. -/
theorem passTaken_length (queues : List (List α)) :
    (passTaken quantum queues).length = passSize quantum (queues.map List.length) := by
  unfold passTaken passSize
  rw [List.length_flatten, List.map_map, List.map_map]
  exact congrArg List.sum (List.map_congr_left fun q _ => List.length_take)

/-- A pass shortens every queue by the quantum. -/
theorem passLeft_lengths (queues : List (List α)) :
    (passLeft quantum queues).map List.length = (queues.map List.length).map (· - quantum) := by
  unfold passLeft
  rw [List.map_map, List.map_map]
  exact List.map_congr_left fun q _ => List.length_drop

/-- A pass leaves the later elements, a quantum nearer to the front. -/
theorem element_passLeft (queues : List (List α)) (j i : ℕ) :
    element (passLeft quantum queues) j i = element queues j (quantum + i) := by
  unfold element passLeft
  rw [List.getElem?_map]
  cases queues[j]? with
  | none => rfl
  | some q => exact List.getElem?_drop

/-- A pass takes an element of a queue's front behind what it takes from the
queues before. -/
theorem passTaken_getElem {queues : List (List α)} {j k : ℕ} {x : α} (hk : k < quantum)
    (h : element queues j k = some x) :
    (passTaken quantum queues)[passSize quantum ((queues.map List.length).take j) + k]? =
      some x := by
  induction queues generalizing j with
  | nil =>
    rw [element, List.getElem?_nil] at h
    cases h
  | cons q queues ih =>
    have hcons : passTaken quantum (q :: queues) = q.take quantum ++ passTaken quantum queues :=
      rfl
    cases j with
    | zero =>
      have hq : q[k]? = some x := h
      have hlt := (List.getElem?_eq_some_iff.mp hq).1
      have htake : (q.take quantum).length = min quantum q.length := List.length_take
      rw [List.take_zero, hcons]
      have hzero : passSize quantum [] + k = k := Nat.zero_add k
      rw [hzero, List.getElem?_append_left (by omega), List.getElem?_take_of_lt hk, hq]
    | succ j =>
      have hrest : element queues j k = some x := h
      have htake : (q.take quantum).length = min quantum q.length := List.length_take
      have hsize : passSize quantum (((q :: queues).map List.length).take (j + 1)) =
          min quantum q.length + passSize quantum ((queues.map List.length).take j) := by
        simp only [passSize, List.map_cons, List.take_succ_cons, List.sum_cons]
      rw [hcons, hsize, List.getElem?_append_right (by omega), ← ih hrest]
      exact congrArg _ (by omega)

/-- The places of round 0 lie in the first pass. -/
theorem placeIn_zero_lt {queues : List (List α)} {j k : ℕ} (hk : k < quantum)
    (h : (element queues j k).isSome) :
    placeIn quantum 0 (queues.map List.length) j k < passSize quantum (queues.map List.length) := by
  obtain ⟨x, hx⟩ := Option.isSome_iff_exists.mp h
  rw [← passTaken_length]
  exact (List.getElem?_eq_some_iff.mp (passTaken_getElem hk hx)).1

/-- An element is in the front of its queue until a round takes it. -/
theorem element_front {queues : List (List α)} {j i i' : ℕ} (hle : i ≤ i')
    (h : (element queues j i').isSome) : (element queues j i).isSome := by
  unfold element at h ⊢
  cases hq : queues[j]? with
  | none =>
    rw [hq] at h
    cases h
  | some q =>
    rw [hq] at h
    have hlt : i' < q.length := by simpa using h
    simpa using hle.trans_lt hlt

/-- The drain puts every element at its place. -/
theorem drain_placeIn {fuel : ℕ} {queues : List (List α)} (hf : held queues < fuel) {j r k : ℕ}
    {x : α} (hk : k < quantum) (h : element queues j (quantum * r + k) = some x) :
    (drain quantum fuel queues)[placeIn quantum r (queues.map List.length) j k]? = some x := by
  have hq : 0 < quantum := by omega
  induction r generalizing queues fuel with
  | zero =>
    rw [Nat.mul_zero, Nat.zero_add] at h
    have hx := passTaken_getElem hk h
    have hlt := (List.getElem?_eq_some_iff.mp hx).1
    obtain ⟨fuel, rfl⟩ := Nat.exists_eq_add_of_le' (Nat.one_le_of_lt hf)
    rw [drain, if_neg (by omega), placeIn, List.getElem?_append_left hlt, hx]
  | succ r ih =>
    have hfront : (element queues j 0).isSome :=
      element_front (Nat.zero_le _) (Option.isSome_iff_exists.mpr ⟨x, h⟩)
    have hpos := placeIn_zero_lt hq hfront
    rw [← passTaken_length] at hpos
    obtain ⟨fuel, rfl⟩ := Nat.exists_eq_add_of_le' (Nat.one_le_of_lt hf)
    have hheld := held_pass quantum queues
    have hnext : element (passLeft quantum queues) j (quantum * r + k) = some x := by
      rw [element_passLeft, ← h]
      exact congrArg _ (by rw [Nat.mul_succ]; omega)
    have hrest := @ih fuel (passLeft quantum queues) (by omega) hnext
    rw [passLeft_lengths] at hrest
    rw [drain, if_neg (by omega), placeIn, ← passTaken_length,
      List.getElem?_append_right (Nat.le_add_right _ _), Nat.add_sub_cancel_left, hrest]

/-- Later rounds, and later elements of a round, are placed later. -/
theorem placeIn_lt {queues : List (List α)} {j r k r' k' : ℕ} (hk : k < quantum)
    (h : (element queues j (quantum * r + k)).isSome) (hlt : r < r' ∨ r = r' ∧ k < k') :
    placeIn quantum r (queues.map List.length) j k <
      placeIn quantum r' (queues.map List.length) j k' := by
  induction r generalizing queues r' with
  | zero =>
    rw [Nat.mul_zero, Nat.zero_add] at h
    cases r' with
    | zero =>
      unfold placeIn
      omega
    | succ r' => exact (placeIn_zero_lt hk h).trans_le (Nat.le_add_right _ _)
  | succ r ih =>
    obtain ⟨r', rfl⟩ : ∃ r'', r' = r'' + 1 := ⟨r' - 1, by omega⟩
    have hnext : (element (passLeft quantum queues) j (quantum * r + k)).isSome := by
      rw [element_passLeft]
      rw [Nat.mul_succ] at h
      exact (congrArg (fun i => (element queues j i).isSome) (by omega)).trans h
    have hrest := ih hnext (by omega : r < r' ∨ r = r' ∧ k < k')
    rw [passLeft_lengths] at hrest
    exact Nat.add_lt_add_left hrest _

/-- A pass takes at most a quantum of each queue. -/
theorem passSize_le (quantum : ℕ) (lengths : List ℕ) :
    passSize quantum lengths ≤ quantum * lengths.length := by
  have h := List.sum_le_card_nsmul (lengths.map (min quantum)) quantum fun n hn => by
    obtain ⟨m, -, rfl⟩ := List.mem_map.mp hn
    exact Nat.min_le_left _ _
  rw [List.length_map] at h
  exact h.trans_eq (Nat.mul_comm _ _)

/-- The passes up to an element's own bound its place. -/
theorem placeIn_bound {lengths : List ℕ} {j r k : ℕ} (hj : j < lengths.length) (hk : k < quantum) :
    placeIn quantum r lengths j k < quantum * lengths.length * (r + 1) := by
  induction r generalizing lengths with
  | zero =>
    have hle := passSize_le quantum (lengths.take j)
    rw [List.length_take_of_le hj.le] at hle
    have hmul : quantum * (j + 1) ≤ quantum * lengths.length := Nat.mul_le_mul_left _ hj
    rw [Nat.mul_succ] at hmul
    rw [placeIn, Nat.zero_add, Nat.mul_one]
    omega
  | succ r ih =>
    have hle := passSize_le quantum lengths
    have hrest := @ih (lengths.map (· - quantum)) (by rw [List.length_map]; exact hj)
    rw [List.length_map] at hrest
    rw [placeIn, Nat.mul_succ (quantum * lengths.length)]
    omega

/-! ## Places number the elements -/

/-- Each element's own position, in place of the element. -/
def labels (queues : List (List α)) : List (List (ℕ × ℕ)) :=
  queues.mapIdx fun j q => (List.range q.length).map fun i => (j, i)

/-- Labels are as many as elements. -/
theorem labels_lengths (queues : List (List α)) :
    (labels queues).map List.length = queues.map List.length := by
  refine List.ext_getElem? fun j => ?_
  simp only [labels, List.getElem?_map, List.getElem?_mapIdx, Option.map_map]
  refine congrArg (fun f => Option.map f queues[j]?) (funext fun q => ?_)
  simp only [Function.comp, List.length_map, List.length_range]

/-- An element's label is its position. -/
theorem element_labels (queues : List (List α)) (j i : ℕ) :
    element (labels queues) j i = (element queues j i).map fun _ => (j, i) := by
  unfold element labels
  rw [List.getElem?_mapIdx]
  cases queues[j]? with
  | none => rfl
  | some q =>
    simp only [Option.map_some, Option.bind_some, List.getElem?_map]
    by_cases h : i < q.length
    · rw [List.getElem?_range h, List.getElem?_eq_getElem h]
      rfl
    · have hrange : (List.range q.length).length ≤ i := by
        rw [List.length_range]
        omega
      rw [List.getElem?_eq_none hrange, List.getElem?_eq_none (by omega)]
      rfl

/-- No label occurs twice. -/
theorem labels_nodup (queues : List (List α)) : (labels queues).flatten.Nodup := by
  rw [List.nodup_flatten]
  constructor
  · intro l hl
    obtain ⟨j, hj, rfl⟩ := List.mem_mapIdx.mp hl
    exact List.nodup_range.map (Prod.mk_right_injective j)
  · rw [List.pairwise_iff_getElem]
    intro j j' hj hj' hlt
    simp only [labels, List.getElem_mapIdx]
    intro p hp hp'
    obtain ⟨i, -, rfl⟩ := List.mem_map.mp hp
    obtain ⟨i', -, heq⟩ := List.mem_map.mp hp'
    exact absurd (congrArg Prod.fst heq) hlt.ne'

/-- Labels are the positions of elements. -/
theorem mem_labels {queues : List (List α)} {j i : ℕ} (h : (j, i) ∈ (labels queues).flatten) :
    (element queues j i).isSome := by
  obtain ⟨l, hl, hmem⟩ := List.mem_flatten.mp h
  obtain ⟨j', hj, rfl⟩ := List.mem_mapIdx.mp hl
  obtain ⟨i', hi, heq⟩ := List.mem_map.mp hmem
  cases heq
  rw [element, List.getElem?_eq_getElem hj]
  have hlt := List.mem_range.mp hi
  simpa using hlt

/-- There are as many labels to drain as elements. -/
theorem held_labels (queues : List (List α)) : held (labels queues) = held queues :=
  congrArg List.sum (labels_lengths queues)

/-- A drain with enough fuel puts out what is held. -/
theorem drain_length (hq : 0 < quantum) {fuel : ℕ} {queues : List (List α)}
    (hf : held queues < fuel) : (drain quantum fuel queues).length = held queues := by
  rw [(drain_perm hq fuel queues hf).length_eq, List.length_flatten]
  rfl

/-- The drain puts every element at its place. -/
theorem drain_place (hq : 0 < quantum) {fuel : ℕ} {queues : List (List α)}
    (hf : held queues < fuel) {j i : ℕ} {x : α} (h : element queues j i = some x) :
    (drain quantum fuel queues)[place quantum (queues.map List.length) j i]? = some x := by
  have hsplit : element queues j (quantum * (i / quantum) + i % quantum) = some x := by
    rw [Nat.div_add_mod, h]
  exact drain_placeIn hf (Nat.mod_lt i hq) hsplit

/-- The drain puts the label of an element at the element's place. -/
theorem drain_labels_place (hq : 0 < quantum) {fuel : ℕ} {queues : List (List α)}
    (hf : held queues < fuel) {j i : ℕ} (h : (element queues j i).isSome) :
    (drain quantum fuel (labels queues))[place quantum (queues.map List.length) j i]? =
      some (j, i) := by
  obtain ⟨x, hx⟩ := Option.isSome_iff_exists.mp h
  have hlabel : element (labels queues) j i = some (j, i) := by
    rw [element_labels, hx]
    rfl
  have hplace := drain_place hq ((held_labels queues).symm ▸ hf) hlabel
  rwa [labels_lengths] at hplace

/-- Later elements of a queue are placed later. -/
theorem place_lt (hq : 0 < quantum) {queues : List (List α)} {j i i' : ℕ} (hlt : i < i')
    (h : (element queues j i').isSome) :
    place quantum (queues.map List.length) j i < place quantum (queues.map List.length) j i' := by
  have hi := Nat.div_add_mod i quantum
  have hi' := Nat.div_add_mod i' quantum
  have hfront : (element queues j (quantum * (i / quantum) + i % quantum)).isSome := by
    rw [hi]
    exact element_front hlt.le h
  refine placeIn_lt (Nat.mod_lt i hq) hfront ?_
  rcases (Nat.div_le_div_right (c := quantum) hlt.le).lt_or_eq with hr | hr
  · exact Or.inl hr
  · rw [hr] at hi
    exact Or.inr ⟨hr, by omega⟩

/-- A drain with enough fuel interleaves the queues. -/
theorem drain_interleaves (hq : 0 < quantum) {fuel : ℕ} {queues : List (List α)}
    (hf : held queues < fuel) :
    Interleaves queues (drain quantum fuel queues) (place quantum (queues.map List.length)) := by
  -- the same drain of the labels tells which element is at a place
  have hf' : held (labels queues) < fuel := (held_labels queues).symm ▸ hf
  have hperm := drain_perm hq fuel (labels queues) hf'
  constructor
  case at_place => exact fun j i x h => drain_place hq hf h
  case ordered => exact fun j i i' hlt h => place_lt hq hlt h
  case onto =>
    intro n hn
    rw [drain_length hq hf, ← held_labels, ← drain_length hq hf'] at hn
    have hsome := mem_labels (hperm.mem_iff.mp (List.getElem_mem hn))
    obtain ⟨hlt, heq⟩ := List.getElem?_eq_some_iff.mp (drain_labels_place hq hf hsome)
    have hnodup := hperm.nodup_iff.mpr (labels_nodup queues)
    exact ⟨_, _, hsome, hnodup.getElem_inj_iff.mp heq⟩
  case unique =>
    intro j i j' i' h h' heq
    have hat := drain_labels_place hq hf h
    rw [heq, drain_labels_place hq hf h'] at hat
    cases hat
    exact ⟨rfl, rfl⟩

/-- An element is preceded by fewer than a quantum of every queue for each
round up to its own. -/
theorem place_bound (hq : 0 < quantum) {queues : List (List α)} {j i : ℕ}
    (h : (element queues j i).isSome) :
    place quantum (queues.map List.length) j i < quantum * queues.length * (i / quantum + 1) := by
  have hj : j < queues.length := by
    by_contra hge
    rw [element, List.getElem?_eq_none (by omega)] at h
    cases h
  have hbound := @placeIn_bound quantum (queues.map List.length) j (i / quantum) (i % quantum)
    (by rw [List.length_map]; exact hj) (Nat.mod_lt i hq)
  rwa [List.length_map] at hbound

end EdenLogger.RoundRobin

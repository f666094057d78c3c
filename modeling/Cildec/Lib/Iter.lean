/-!
# Iterators

An iterator is a state with a `next` that returns an item, or nothing when it is at its
end. `Yields` is a whole run of it, `Reached` the states its calls lead to. A run is
unique (`Yields.unique`), and exists when some measure of the state decreases with every
item (`exists_yields`).
-/

namespace Wire

variable {σ α : Type}

/-! ## Runs -/

/-- From `s` the calls return `as` in order, then nothing, and leave the iterator in `t`. -/
inductive Yields (next : σ → Option α × σ) : σ → List α → σ → Prop where
  | done {s t : σ} (h : next s = (none, t)) : Yields next s [] t
  | item {s t u : σ} {a : α} {as : List α} (h : next s = (some a, t))
      (tail : Yields next t as u) : Yields next s (a :: as) u

variable {next : σ → Option α × σ} {s t : σ}

/-- An iterator has one run from a state. -/
theorem Yields.unique {as bs : List α} {u v : σ} (h : Yields next s as u)
    (h' : Yields next s bs v) : as = bs ∧ u = v := by
  induction h generalizing bs v with
  | done h =>
      cases h' with
      | done h' =>
          rw [h] at h'
          cases h'
          exact ⟨rfl, rfl⟩
      | item h' _ =>
          rw [h] at h'
          cases h'
  | item h _ ih =>
      cases h' with
      | done h' =>
          rw [h] at h'
          cases h'
      | item h' tail' =>
          rw [h] at h'
          cases h'
          obtain ⟨rfl, rfl⟩ := ih tail'
          exact ⟨rfl, rfl⟩

/-- A run exists when every item makes a measure of the state smaller. -/
theorem exists_yields (μ : σ → Nat) (hμ : ∀ s a t, next s = (some a, t) → μ t < μ s) (s : σ) :
    ∃ as t, Yields next s as t := by
  induction hn : μ s using Nat.strongRecOn generalizing s with
  | ind n ih =>
      obtain ⟨item, t, hnext⟩ : ∃ item t, next s = (item, t) := ⟨_, _, rfl⟩
      cases item with
      | none => exact ⟨[], t, .done hnext⟩
      | some a =>
          have hless := hμ s a t hnext
          obtain ⟨as, u, htail⟩ := ih (μ t) (by omega) t rfl
          exact ⟨a :: as, u, .item hnext htail⟩

/-- A run of an iterator whose calls are those of another, seen through `f` and `g`. -/
theorem Yields.map {τ β : Type} {next' : τ → Option β × τ} {f : α → β} {g : σ → τ}
    (hnext : ∀ s, next' (g s) = ((next s).1.map f, g (next s).2)) {as : List α}
    (h : Yields next s as t) : Yields next' (g s) (as.map f) (g t) := by
  induction h with
  | done h => exact .done (by rw [hnext, h]; rfl)
  | item h _ ih => exact .item (by rw [hnext, h]; rfl) ih

/-- The same where the calls only agree on the states that an invariant admits. -/
theorem Yields.map_of_inv {τ β : Type} {next' : τ → Option β × τ} {f : α → β} {g : σ → τ}
    {I : σ → Prop} (hI : ∀ s, I s → I (next s).2)
    (hnext : ∀ s, I s → next' (g s) = ((next s).1.map f, g (next s).2)) {as : List α}
    (h : Yields next s as t) (hs : I s) : Yields next' (g s) (as.map f) (g t) := by
  induction h with
  | done h => exact .done (by rw [hnext _ hs, h]; rfl)
  | item h _ ih =>
      have htail := hI _ hs
      rw [h] at htail
      exact .item (by rw [hnext _ hs, h]; rfl) (ih htail)

/-! ## Reached states -/

/-- The calls of `next` lead from `s` to a state. -/
inductive Reached (next : σ → Option α × σ) (s : σ) : σ → Prop where
  | start : Reached next s s
  | call {t : σ} (h : Reached next s t) : Reached next s (next t).2

/-- What holds at the start and is kept by every call holds wherever the calls lead. -/
theorem Reached.invariant {I : σ → Prop} (hs : I s) (hstep : ∀ t, I t → I (next t).2)
    (h : Reached next s t) : I t := by
  induction h with
  | start => exact hs
  | call _ ih => exact hstep _ ih

/-- Every further call returns nothing. -/
def Exhausted (next : σ → Option α × σ) (s : σ) : Prop :=
  ∀ t, Reached next s t → (next t).1 = none

/-- An iterator that returns nothing and stays where it is has ended for good. -/
theorem exhausted_of_stays (h : next s = (none, s)) : Exhausted next s := by
  intro t ht
  have hstays : t = s := Reached.invariant (I := fun t => t = s) rfl (fun t hts => by rw [hts, h]) ht
  rw [hstays, h]

/-! ## Counters -/

section Counter

variable {item : Nat → α} {state : Nat → σ} {stop : Nat}

/-- A counter returns the items from where it stands to its end. -/
theorem Yields.counter (hitem : ∀ i, i < stop → next (state i) = (some (item i), state (i + 1)))
    (hstop : next (state stop) = (none, state stop)) {n start : Nat} (h : start + n = stop) :
    Yields next (state start) ((List.range' start n).map item) (state stop) := by
  induction n generalizing start with
  | zero =>
      obtain rfl : start = stop := h
      exact .done hstop
  | succ n ih =>
      rw [List.range'_succ, List.map_cons]
      exact .item (hitem start (by omega)) (ih (by omega))

/-- The calls of a counter leave it between its start and its end. -/
theorem Reached.counter (hitem : ∀ i, i < stop → next (state i) = (some (item i), state (i + 1)))
    (hstop : next (state stop) = (none, state stop)) {start : Nat} (hle : start ≤ stop)
    (h : Reached next (state start) s) : ∃ i, start ≤ i ∧ i ≤ stop ∧ s = state i := by
  induction h with
  | start => exact ⟨start, Nat.le_refl _, hle, rfl⟩
  | call _ ih =>
      obtain ⟨i, hstart, hi, rfl⟩ := ih
      rcases Nat.lt_or_eq_of_le hi with hlt | rfl
      · rw [hitem i hlt]
        exact ⟨i + 1, by omega, hlt, rfl⟩
      · rw [hstop]
        exact ⟨i, hstart, Nat.le_refl _, rfl⟩

end Counter

/-! ## Items that may have failed -/

variable {ε : Type}

/-- The values among the items. -/
def oks (items : List (Except ε α)) : List α := items.filterMap Except.toOption

/-- No item is an error. -/
def AllOk (items : List (Except ε α)) : Prop := ∀ x ∈ items, x.isOk = true

@[simp] theorem oks_nil : oks ([] : List (Except ε α)) = [] := rfl

@[simp] theorem oks_ok (a : α) (items : List (Except ε α)) :
    oks (.ok a :: items) = a :: oks items := rfl

@[simp] theorem oks_error (e : ε) (items : List (Except ε α)) :
    oks (.error e :: items) = oks items := rfl

@[simp] theorem oks_append (items items' : List (Except ε α)) :
    oks (items ++ items') = oks items ++ oks items' := List.filterMap_append

@[simp] theorem oks_map_ok (as : List α) : oks (as.map Except.ok : List (Except ε α)) = as := by
  induction as with
  | nil => rfl
  | cons a as ih => rw [List.map_cons, oks_ok, ih]

@[simp] theorem oks_map_error (es : List ε) :
    oks (es.map Except.error : List (Except ε α)) = [] := by
  induction es with
  | nil => rfl
  | cons e es ih => rw [List.map_cons, oks_error, ih]

theorem mem_oks_iff {a : α} {items : List (Except ε α)} : a ∈ oks items ↔ .ok a ∈ items := by
  rw [oks, List.mem_filterMap]
  constructor
  · rintro ⟨x, hx, hok⟩
    cases x with
    | error e => cases hok
    | ok b =>
        cases hok
        exact hx
  · intro h
    exact ⟨_, h, rfl⟩

@[simp] theorem allOk_nil : AllOk ([] : List (Except ε α)) := fun _ h => absurd h List.not_mem_nil

@[simp] theorem allOk_ok (a : α) (items : List (Except ε α)) :
    AllOk (.ok a :: items) ↔ AllOk items := by
  simp [AllOk, Except.isOk, Except.toBool]

@[simp] theorem not_allOk_error (e : ε) (items : List (Except ε α)) :
    ¬ AllOk (.error e :: items) := by
  simp [AllOk, Except.isOk, Except.toBool]

@[simp] theorem allOk_append (items items' : List (Except ε α)) :
    AllOk (items ++ items') ↔ AllOk items ∧ AllOk items' := by
  simp only [AllOk, List.forall_mem_append]

@[simp] theorem allOk_map_ok (as : List α) : AllOk (as.map Except.ok : List (Except ε α)) := by
  simp [AllOk, Except.isOk, Except.toBool]

end Wire

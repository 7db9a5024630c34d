import Mathlib.Algebra.BigOperators.Group.List.Basic
import ThermalSearch.Cancellation
import ThermalSearch.Failure

/-!
# Runs as repeated steps

The engines are loops: as long as nothing stops them they repeat one step, which may fail. Here
such loops are taken apart once for all. `after` is the state after a number of steps, `notes`
what is noted about each of them, and `runUntil` the loop with its exits. The main facts are

* `after_induction`, `notes_induction`, `forall_notes`: what a step keeps holds after any number of
  steps, also if it speaks of everything noted so far;
* `exit_of_runUntil`: a loop that returns was left at its first exit, or with its budget spent;
* `after_map`, `runUntil_congr`: loops that correspond step by step;
* `runUntil_of_le`, `runUntil_cut`: what a smaller budget or a further exit changes;
* `foldlM_eq_ok`, `mapM_eq_ok`, `filterM_eq_ok`: a loop over a list whose body always returns;
* `foldlM_induction`, `foldlM_seen`, `foldlM_zipIdx`: what holds of the part of a list that was
  gone through so far;
* `foldlM_flatMap`, `foldlM_map`: a loop as a list of smaller steps;
* `foldlM_adds`: what a loop over a list adds up;
* `admission_eq_ok`: what is checked before a loop is entered.
-/

namespace ThermalSearch

variable {α ε σ ρ β : Type} {step : σ → Except ε σ}

/-- The state after `n` steps, if none of them fails. -/
def after (step : σ → Except ε σ) : Nat → σ → Except ε σ
  | 0, s => .ok s
  | n + 1, s => step s >>= after step n

/-- What `note` says about the steps, in order. A step that fails is not noted, and is the
last one. -/
def notes (step : σ → Except ε σ) (note : σ → σ → List β) : Nat → σ → List β
  | 0, _ => []
  | n + 1, s =>
    match step s with
    | .ok s' => note s s' ++ notes step note n s'
    | .error _ => []

/-- Steps until `stop` gives a reason to end or the budget is spent, and says which it was. -/
def runUntil (stop : σ → Option ρ) (spent : ρ) (step : σ → Except ε σ) :
    Nat → σ → Except ε (ρ × σ)
  | 0, s => .ok (spent, s)
  | budget + 1, s =>
    match stop s with
    | some reason => .ok (reason, s)
    | none => step s >>= runUntil stop spent step budget

/-! ## States after a number of steps -/

theorem after_succ_eq_ok {n : Nat} {s t : σ} :
    after step (n + 1) s = .ok t ↔ ∃ s', step s = .ok s' ∧ after step n s' = .ok t := by
  rw [after]
  exact bind_eq_ok_iff

theorem after_add_eq_ok {m n : Nat} {s t : σ} :
    after step (m + n) s = .ok t ↔ ∃ u, after step m s = .ok u ∧ after step n u = .ok t := by
  induction m generalizing s with
  | zero =>
    rw [Nat.zero_add]
    constructor
    · intro h
      exact ⟨s, rfl, h⟩
    · rintro ⟨u, hu, h⟩
      cases hu
      exact h
  | succ m ih =>
    rw [Nat.succ_add, after_succ_eq_ok]
    constructor
    · rintro ⟨s', hs', h⟩
      rcases ih.mp h with ⟨u, hu, ht⟩
      exact ⟨u, after_succ_eq_ok.mpr ⟨s', hs', hu⟩, ht⟩
    · rintro ⟨u, hu, ht⟩
      rcases after_succ_eq_ok.mp hu with ⟨s', hs', hu'⟩
      exact ⟨s', hs', ih.mpr ⟨u, hu', ht⟩⟩

/-- A statement about a state and all that was noted on the way to it. -/
theorem notes_induction {note : σ → σ → List β} (Inv : List β → σ → Prop)
    (hstep : ∀ seen s s', Inv seen s → step s = .ok s' → Inv (seen ++ note s s') s')
    {n : Nat} {seen : List β} {s t : σ} (h0 : Inv seen s) (h : after step n s = .ok t) :
    Inv (seen ++ notes step note n s) t := by
  induction n generalizing seen s with
  | zero =>
    cases h
    simpa [notes] using h0
  | succ n ih =>
    rcases after_succ_eq_ok.mp h with ⟨s', hs', ht⟩
    have hnext : Inv (seen ++ note s s' ++ notes step note n s') t :=
      ih (hstep seen s s' h0 hs') ht
    simpa [notes, hs', List.append_assoc] using hnext

/-- What each step keeps, and what holds of all that is noted about steps that keep it. -/
theorem forall_notes {note : σ → σ → List β} {P : σ → Prop} {Q : β → Prop}
    (hstep : ∀ s s', P s → step s = .ok s' → (∀ b ∈ note s s', Q b) ∧ P s') {n : Nat} {s t : σ}
    (h0 : P s) (h : after step n s = .ok t) : (∀ b ∈ notes step note n s, Q b) ∧ P t := by
  refine notes_induction (fun seen u => (∀ b ∈ seen, Q b) ∧ P u) ?_
    ⟨fun _ hb => absurd hb List.not_mem_nil, h0⟩ h
  rintro seen u u' ⟨hseen, hu⟩ hs
  obtain ⟨hnoted, hu'⟩ := hstep u u' hu hs
  refine ⟨?_, hu'⟩
  intro b hb
  rcases List.mem_append.mp hb with hb | hb
  · exact hseen b hb
  · exact hnoted b hb

/-- What is noted on the way splits where the way does. -/
theorem notes_add {note : σ → σ → List β} {m : Nat} {s u : σ} (h : after step m s = .ok u)
    (n : Nat) : notes step note (m + n) s = notes step note m s ++ notes step note n u := by
  induction m generalizing s with
  | zero =>
    cases h
    rw [Nat.zero_add]
    rfl
  | succ m ih =>
    rcases after_succ_eq_ok.mp h with ⟨s', hs', hu⟩
    rw [Nat.succ_add, notes, notes, hs']
    dsimp only
    rw [ih hu, List.append_assoc]

/-- What each step keeps is kept. -/
theorem after_induction (Inv : σ → Prop) (hstep : ∀ s s', Inv s → step s = .ok s' → Inv s')
    {n : Nat} {s t : σ} (h0 : Inv s) (h : after step n s = .ok t) : Inv t := by
  induction n generalizing s with
  | zero =>
    cases h
    exact h0
  | succ n ih =>
    obtain ⟨s', hs', ht⟩ := after_succ_eq_ok.mp h
    exact ih (hstep s s' h0 hs') ht

/-- Steps that never fail can be repeated at will. -/
theorem after_total (htotal : ∀ s, ∃ s', step s = .ok s') (n : Nat) (s : σ) :
    ∃ t, after step n s = .ok t := by
  induction n generalizing s with
  | zero => exact ⟨s, rfl⟩
  | succ n ih =>
    rcases htotal s with ⟨s', hs'⟩
    rcases ih s' with ⟨t, ht⟩
    exact ⟨t, after_succ_eq_ok.mpr ⟨s', hs', ht⟩⟩

/-- A counter that every step advances by one tells how many steps there were. -/
theorem count_after {count : σ → Nat}
    (hstep : ∀ {s s' : σ}, step s = .ok s' → count s' = count s + 1) {n : Nat} {s t : σ}
    (h : after step n s = .ok t) : count t = count s + n := by
  induction n generalizing s with
  | zero =>
    cases h
    rfl
  | succ n ih =>
    rcases after_succ_eq_ok.mp h with ⟨s', hs', ht⟩
    rw [ih ht, hstep hs']
    omega

/-! ## Loops with exits -/

variable {stop : σ → Option ρ} {spent : ρ}

/-- How a loop was left: at the first exit, or with its budget spent. -/
theorem exit_of_runUntil {budget : Nat} {s t : σ} {reason : ρ}
    (h : runUntil stop spent step budget s = .ok (reason, t)) :
    ∃ n ≤ budget, after step n s = .ok t ∧
      (∀ j < n, ∀ u, after step j s = .ok u → stop u = none) ∧
      (n = budget ∧ reason = spent ∨ n < budget ∧ stop t = some reason) := by
  induction budget generalizing s with
  | zero =>
    cases h
    exact ⟨0, Nat.le_refl 0, rfl, by simp, Or.inl ⟨rfl, rfl⟩⟩
  | succ budget ih =>
    unfold runUntil at h
    cases hstop : stop s with
    | some first =>
      rw [hstop] at h
      cases h
      exact ⟨0, Nat.zero_le _, rfl, by simp, Or.inr ⟨Nat.succ_pos budget, hstop⟩⟩
    | none =>
      rw [hstop] at h
      obtain ⟨s', hs', ht⟩ := bind_eq_ok_iff.mp h
      obtain ⟨n, hn, hafter, hgo, hend⟩ := ih ht
      refine ⟨n + 1, Nat.succ_le_succ hn, after_succ_eq_ok.mpr ⟨s', hs', hafter⟩, ?_, ?_⟩
      · intro j hj u hu
        cases j with
        | zero =>
          cases hu
          exact hstop
        | succ j =>
          obtain ⟨s₁, hs₁, hu⟩ := after_succ_eq_ok.mp hu
          cases hs'.symm.trans hs₁
          exact hgo j (Nat.lt_of_succ_lt_succ hj) u hu
      · rcases hend with ⟨rfl, hspent⟩ | ⟨hlt, hexit⟩
        · exact Or.inl ⟨rfl, hspent⟩
        · exact Or.inr ⟨Nat.succ_lt_succ hlt, hexit⟩

/-- A loop that has not been left so far goes no further than to where there is an exit. -/
theorem le_of_exit {k n : Nat} {s t : σ} (hafter : after step n s = .ok t)
    (hgo : ∀ j < n, ∀ u, after step j s = .ok u → stop u = none)
    (hexit : ∀ u, after step k s = .ok u → stop u ≠ none) : n ≤ k := by
  by_contra hlate
  have hsplit : after step (k + (n - k)) s = .ok t := by
    rw [Nat.add_sub_cancel' (by omega)]
    exact hafter
  obtain ⟨u, hu, -⟩ := after_add_eq_ok.mp hsplit
  exact hexit u hu (hgo k (by omega) u hu)

/-- A loop that returns was left after some number of steps, within its budget. -/
theorem runUntil_eq_ok {budget : Nat} {s t : σ} {reason : ρ}
    (h : runUntil stop spent step budget s = .ok (reason, t)) :
    ∃ n ≤ budget, after step n s = .ok t := by
  obtain ⟨n, hn, hafter, -⟩ := exit_of_runUntil h
  exact ⟨n, hn, hafter⟩

theorem runUntil_total (htotal : ∀ s, ∃ s', step s = .ok s') (budget : Nat) (s : σ) :
    ∃ out, runUntil stop spent step budget s = .ok out := by
  induction budget generalizing s with
  | zero => exact ⟨(spent, s), rfl⟩
  | succ budget ih =>
    unfold runUntil
    split
    next reason _ => exact ⟨(reason, s), rfl⟩
    next =>
      rcases htotal s with ⟨s', hs'⟩
      rcases ih s' with ⟨out, hout⟩
      exact ⟨out, bind_eq_ok_iff.mpr ⟨s', hs', hout⟩⟩

/-! ## Loops that correspond

Two loops may be the same one seen in different ways: in other units, say, or with and without
what they write down. -/

section

variable {σ' τ : Type} {step' : σ' → Except ε σ'} {stop' : σ' → Option ρ}

/-- Of two computations that look the same, one returns when the other does. -/
theorem exists_ok_of_map_eq {γ δ : Type} {x : Except ε β} {y : Except ε γ} {f : β → δ}
    {g : γ → δ} (h : x.map f = y.map g) {b : β} (hx : x = .ok b) :
    ∃ c, y = .ok c ∧ f b = g c := by
  rw [hx] at h
  cases y with
  | error e => cases h
  | ok c => exact ⟨c, rfl, Except.ok.inj h⟩

/-- Steps that correspond lead to states that correspond. -/
theorem after_map {f : σ → σ'} (hstep : ∀ s, step' (f s) = (step s).map f) (n : Nat) (s : σ) :
    after step' n (f s) = (after step n s).map f := by
  induction n generalizing s with
  | zero => rfl
  | succ n ih =>
    rw [after, after, hstep]
    cases step s with
    | error e => rfl
    | ok t => exact ih t

/-- If exits and steps depend on a view of the state only, then so do loops. The two states may be
viewed in different ways. -/
theorem runUntil_congr {view : σ → τ} {view' : σ' → τ}
    (hstop : ∀ {s s'}, view s = view' s' → stop s = stop' s')
    (hstep : ∀ {s s'}, view s = view' s' → (step s).map view = (step' s').map view')
    (budget : Nat) {s : σ} {s' : σ'} (h : view s = view' s') :
    (runUntil stop spent step budget s).map (Prod.map id view) =
      (runUntil stop' spent step' budget s').map (Prod.map id view') := by
  induction budget generalizing s s' with
  | zero => exact congrArg (fun v => Except.ok (spent, v)) h
  | succ budget ih =>
    rw [runUntil, runUntil, hstop h]
    cases stop' s' with
    | some reason => exact congrArg (fun v => Except.ok (reason, v)) h
    | none =>
      have hnext : (step s).map view = (step' s').map view' := hstep h
      cases hs : step s with
      | error e =>
        cases hs' : step' s' with
        | error e' =>
          rw [hs, hs'] at hnext
          cases hnext
          rfl
        | ok t' =>
          rw [hs, hs'] at hnext
          cases hnext
      | ok t =>
        cases hs' : step' s' with
        | error e' =>
          rw [hs, hs'] at hnext
          cases hnext
        | ok t' =>
          rw [hs, hs'] at hnext
          exact ih (Except.ok.inj hnext)

theorem runUntil_map {f : σ → σ'} (hstop : ∀ s, stop' (f s) = stop s)
    (hstep : ∀ s, step' (f s) = (step s).map f) (budget : Nat) (s : σ) :
    runUntil stop' spent step' budget (f s) =
      (runUntil stop spent step budget s).map (Prod.map id f) := by
  have hid {γ : Type} (x : Except ε γ) : x.map id = x := by
    cases x <;> rfl
  have hcongr : (runUntil stop spent step budget s).map (Prod.map id f) =
      (runUntil stop' spent step' budget (f s)).map (Prod.map id id) := by
    refine runUntil_congr ?_ ?_ budget rfl
    · rintro s _ rfl
      exact (hstop s).symm
    · rintro s _ rfl
      rw [hid]
      exact (hstep s).symm
  rw [hcongr, Prod.map_id, hid]

end

/-! ## Loops that are cut short -/

/-- Of the polls of a run, numbered from zero, the watch says yes to number `k` and to none before
it. -/
structure Watch.FirstStop (watch : Watch) (polls : Nat → Poll) (k : Nat) : Prop where
  before : ∀ j < k, watch (polls j) = false
  here : watch (polls k) = true

/-- On the way to where a loop ends it passes where it would end with a smaller budget. -/
theorem runUntil_of_le {short budget : Nat} {s t : σ} {reason : ρ} (hle : short ≤ budget)
    (h : runUntil stop spent step budget s = .ok (reason, t)) :
    ∃ reason' u n, runUntil stop spent step short s = .ok (reason', u) ∧
      after step n u = .ok t := by
  induction short generalizing budget s with
  | zero =>
    obtain ⟨n, -, hafter⟩ := runUntil_eq_ok h
    exact ⟨spent, s, n, rfl, hafter⟩
  | succ short ih =>
    cases budget with
    | zero => cases hle
    | succ budget =>
      unfold runUntil at h ⊢
      cases hstop : stop s with
      | some first =>
        rw [hstop] at h
        cases h
        exact ⟨_, _, 0, rfl, rfl⟩
      | none =>
        rw [hstop] at h
        obtain ⟨s', hs', ht⟩ := bind_eq_ok_iff.mp h
        obtain ⟨reason', u, n, hshort, hafter⟩ := ih (Nat.le_of_succ_le_succ hle) ht
        exact ⟨reason', u, n, bind_eq_ok_iff.mpr ⟨s', hs', hshort⟩, hafter⟩

/-- A further exit that is met after `short` steps and not before, if the loop gets there at all,
has the effect of a budget of so many steps. -/
theorem runUntil_cut {stop' : σ → Option ρ} {short budget : Nat} {s : σ} (hlt : short < budget)
    (hbefore : ∀ j < short, ∀ t, after step j s = .ok t → stop' t = stop t)
    (hcut : ∀ t, after step short s = .ok t → ∃ reason, stop' t = some reason) :
    (runUntil stop' spent step budget s).map Prod.snd =
      (runUntil stop spent step short s).map Prod.snd := by
  induction short generalizing budget s with
  | zero =>
    cases budget with
    | zero => cases hlt
    | succ budget =>
      obtain ⟨reason, hreason⟩ := hcut s rfl
      unfold runUntil
      rw [hreason]
      rfl
  | succ short ih =>
    cases budget with
    | zero => cases hlt
    | succ budget =>
      have hhere : stop' s = stop s := hbefore 0 (Nat.succ_pos short) s rfl
      rw [runUntil, runUntil, hhere]
      cases stop s with
      | some reason => rfl
      | none =>
        cases hs : step s with
        | error e => rfl
        | ok s' =>
          refine ih (Nat.lt_of_succ_lt_succ hlt) ?_ ?_
          · intro j hj t ht
            exact hbefore (j + 1) (Nat.succ_lt_succ hj) t (after_succ_eq_ok.mpr ⟨s', hs, ht⟩)
          · intro t ht
            exact hcut t (after_succ_eq_ok.mpr ⟨s', hs, ht⟩)

/-! ## Loops over lists -/

variable {γ : Type} {l : List β}

theorem foldlM_eq_ok {body : σ → β → Except ε σ} {f : σ → β → σ}
    (h : ∀ s, ∀ b ∈ l, body s b = .ok (f s b)) (s : σ) :
    l.foldlM body s = .ok (l.foldl f s) := by
  induction l generalizing s with
  | nil => rfl
  | cons b l ih =>
    rw [List.foldlM_cons, h s b List.mem_cons_self, List.foldl_cons]
    exact ih (fun s c hc => h s c (List.mem_cons_of_mem b hc)) (f s b)

theorem mapM_eq_ok {body : β → Except ε γ} {f : β → γ} (h : ∀ b ∈ l, body b = .ok (f b)) :
    l.mapM body = .ok (l.map f) := by
  induction l with
  | nil => rfl
  | cons b l ih =>
    rw [List.mapM_cons, h b List.mem_cons_self, ih (fun c hc => h c (List.mem_cons_of_mem b hc))]
    rfl

theorem filterM_eq_ok {body : β → Except ε Bool} {p : β → Bool}
    (h : ∀ b ∈ l, body b = .ok (p b)) : l.filterM body = .ok (l.filter p) := by
  -- what was kept so far is collected in reverse
  have hcollect : ∀ kept : List β,
      List.filterAuxM body l kept = .ok ((l.filter p).reverse ++ kept) := by
    induction l with
    | nil => exact fun kept => rfl
    | cons b l ih =>
      intro kept
      have hrest := ih (fun c hc => h c (List.mem_cons_of_mem b hc)) (cond (p b) (b :: kept) kept)
      rw [List.filterAuxM, h b List.mem_cons_self]
      refine hrest.trans ?_
      cases hb : p b <;> simp [hb]
  rw [List.filterM, hcollect []]
  simp [bind, Except.bind, pure, Except.pure]

/-- A loop of checks that is passed has passed each of them. -/
theorem eq_ok_of_forM {body : β → Except ε Unit} (h : l.forM body = .ok ()) :
    ∀ b ∈ l, body b = .ok () := by
  induction l with
  | nil =>
    intro b hb
    cases hb
  | cons first l ih =>
    obtain ⟨⟨⟩, hfirst, hrest⟩ := bind_eq_ok_iff.mp h
    intro b hb
    rcases List.mem_cons.mp hb with rfl | hb
    · exact hfirst
    · exact ih hrest b hb

/-- If each pass returns, and extends what is known of the entries before it to its own entry, then
the loop returns with all of it known. -/
theorem foldlM_induction {body : σ → β → Except ε σ} (Inv : List β → σ → Prop)
    (hbody : ∀ seen b s, b ∈ l → Inv seen s → ∃ s', body s b = .ok s' ∧ Inv (seen ++ [b]) s')
    {s : σ} (h0 : Inv [] s) : ∃ s', l.foldlM body s = .ok s' ∧ Inv l s' := by
  have hrest : ∀ seen s, Inv seen s → ∃ s', l.foldlM body s = .ok s' ∧ Inv (seen ++ l) s' := by
    clear h0
    induction l with
    | nil =>
      intro seen s h
      rw [List.append_nil]
      exact ⟨s, rfl, h⟩
    | cons b l ih =>
      intro seen s h
      obtain ⟨s₁, hfirst, h₁⟩ := hbody seen b s List.mem_cons_self h
      obtain ⟨s', hlater, h'⟩ :=
        ih (fun seen c s hc => hbody seen c s (List.mem_cons_of_mem b hc)) (seen ++ [b]) s₁ h₁
      rw [List.append_assoc] at h'
      refine ⟨s', ?_, h'⟩
      rw [List.foldlM_cons]
      exact bind_eq_ok_iff.mpr ⟨s₁, hfirst, hlater⟩
  exact hrest [] s h0

/-- If each pass that returns extends what is known of the entries before it to its own entry, then
all of it is known when the loop returns. -/
theorem foldlM_seen {body : σ → β → Except ε σ} (Inv : List β → σ → Prop)
    (hbody : ∀ seen b s s', b ∈ l → Inv seen s → body s b = .ok s' → Inv (seen ++ [b]) s')
    {s s' : σ} (h0 : Inv [] s) (h : l.foldlM body s = .ok s') : Inv l s' := by
  have hrest : ∀ seen s, Inv seen s → l.foldlM body s = .ok s' → Inv (seen ++ l) s' := by
    clear h0 h
    induction l with
    | nil =>
      intro seen s hs h
      cases h
      rw [List.append_nil]
      exact hs
    | cons b l ih =>
      intro seen s hs h
      rw [List.foldlM_cons] at h
      obtain ⟨s₁, hfirst, hlater⟩ := bind_eq_ok_iff.mp h
      have h' := ih (fun seen c s s' hc => hbody seen c s s' (List.mem_cons_of_mem b hc))
        (seen ++ [b]) s₁ (hbody seen b s s₁ List.mem_cons_self hs hfirst) hlater
      rw [List.append_assoc] at h'
      exact h'
  exact hrest [] s h0 h

/-- A loop whose passes are made of smaller steps takes all of them. They may fail in other ways than
the passes do. -/
theorem foldlM_flatMap {ε' : Type} {body : σ → β → Except ε σ} {step : σ → γ → Except ε' σ}
    {steps : β → List γ}
    (hbody : ∀ b ∈ l, ∀ s s', body s b = .ok s' → (steps b).foldlM step s = .ok s')
    {s s' : σ} (h : l.foldlM body s = .ok s') : (l.flatMap steps).foldlM step s = .ok s' := by
  induction l generalizing s with
  | nil =>
    cases h
    rfl
  | cons b l ih =>
    rw [List.foldlM_cons] at h
    obtain ⟨s₁, hfirst, hrest⟩ := bind_eq_ok_iff.mp h
    rw [List.flatMap_cons, List.foldlM_append]
    refine bind_eq_ok_iff.mpr ⟨s₁, hbody b List.mem_cons_self s s₁ hfirst, ?_⟩
    exact ih (fun c hc => hbody c (List.mem_cons_of_mem b hc)) hrest

/-- So does a loop that takes one step in each pass. -/
theorem foldlM_map {ε' : Type} {body : σ → β → Except ε σ} {step : σ → γ → Except ε' σ} {next : β → γ}
    (hbody : ∀ b ∈ l, ∀ s s', body s b = .ok s' → step s (next b) = .ok s')
    {s s' : σ} (h : l.foldlM body s = .ok s') : (l.map next).foldlM step s = .ok s' := by
  rw [List.map_eq_flatMap]
  refine foldlM_flatMap ?_ h
  intro b hb s s' hpass
  exact bind_eq_ok_iff.mpr ⟨s', hbody b hb s s' hpass, rfl⟩

/-- What a pass over a numbered entry leads from its number to the next one leads from zero to the
number of entries. -/
theorem foldlM_zipIdx {body : σ → β × Nat → Except ε σ} (Inv : Nat → σ → Prop)
    (hbody : ∀ (i : Fin l.length) s s', Inv i s → body s (l.get i, i) = .ok s' → Inv (i + 1) s')
    {s s' : σ} (h0 : Inv 0 s) (h : l.zipIdx.foldlM body s = .ok s') : Inv l.length s' := by
  have hrest : ∀ (xs : List β) (k : Nat) (s : σ),
      (∀ (i : Nat) (hi : i < xs.length) s s', Inv (k + i) s → body s (xs[i], k + i) = .ok s' →
        Inv (k + i + 1) s') →
      Inv k s → (xs.zipIdx k).foldlM body s = .ok s' → Inv (k + xs.length) s' := by
    intro xs
    induction xs with
    | nil =>
      intro k s _ hs h
      cases h
      exact hs
    | cons b xs ih =>
      intro k s hpass hs h
      rw [List.zipIdx_cons, List.foldlM_cons] at h
      obtain ⟨s₁, hfirst, hlater⟩ := bind_eq_ok_iff.mp h
      have hnext : Inv (k + 1) s₁ := hpass 0 (Nat.succ_pos _) s s₁ hs hfirst
      rw [List.length_cons, Nat.add_comm xs.length, ← Nat.add_assoc]
      refine ih (k + 1) s₁ ?_ hnext hlater
      intro i hi t t' ht ht'
      have hshift : k + (i + 1) = k + 1 + i := by omega
      have hstep := hpass (i + 1) (Nat.succ_lt_succ hi) t t'
      rw [hshift] at hstep
      exact hstep ht ht'
  have hall := hrest l 0 s (fun i hi t t' ht ht' => by
    rw [Nat.zero_add] at ht ht' ⊢
    exact hbody ⟨i, hi⟩ t t' ht ht') h0 h
  rw [Nat.zero_add] at hall
  exact hall

/-- If each pass adds its gain to a measure and keeps an invariant that it relies on, then the
loop adds the sum of the gains. -/
theorem foldlM_adds {K : Type} [AddMonoid K] {body : σ → β → Except ε σ} {Inv : σ → Prop}
    {measure : σ → K} {gain : β → K}
    (hbody : ∀ s s' b, b ∈ l → Inv s → body s b = .ok s' →
      Inv s' ∧ measure s' = measure s + gain b)
    {s s' : σ} (h0 : Inv s) (h : l.foldlM body s = .ok s') :
    Inv s' ∧ measure s' = measure s + (l.map gain).sum := by
  refine foldlM_seen
    (fun seen t => Inv t ∧ measure t = measure s + (seen.map gain).sum) ?_ ⟨h0, by simp⟩ h
  intro seen b t t' hb ht hpass
  obtain ⟨hinv, hgain⟩ := hbody t t' b hb ht.1 hpass
  refine ⟨hinv, ?_⟩
  rw [hgain, ht.2, List.map_append, List.sum_append, List.map_singleton, List.sum_singleton,
    add_assoc]

/-! ## Before a loop -/

/-- A search is entered with checked settings and a state that has coordinates. -/
theorem admission_eq_ok {check : Except (Rejection α) Unit} {initial : List β}
    {rest : Except (Failure α) ρ} {r : ρ} :
    (show Except (Failure α) ρ from do
      check
      if initial.isEmpty then throw (.rejected .emptyState)
      rest) = .ok r ↔ check = .ok () ∧ initial ≠ [] ∧ rest = .ok r := by
  rw [bind_eq_ok_iff]
  constructor
  · rintro ⟨⟨⟩, hcheck, h⟩
    cases initial with
    | nil => cases h
    | cons x xs => exact ⟨liftRejection_eq_ok_iff.mp hcheck, List.cons_ne_nil x xs, h⟩
  · rintro ⟨hcheck, hne, h⟩
    refine ⟨(), liftRejection_eq_ok_iff.mpr hcheck, ?_⟩
    cases initial with
    | nil => exact absurd rfl hne
    | cons x xs => exact h

end ThermalSearch

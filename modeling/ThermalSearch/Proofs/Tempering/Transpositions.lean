import ThermalSearch.Proofs.Tempering.Shape

/-!
# A round of exchanges as transpositions

A round pairs neighbours off, and a rung is in one pair at most. So the pairs of a round
(`offeredPairs`) may be judged all at once, by what the rungs hold before it, and only the generator is
handed on from one pair to the next (`settle`). Where a pair is accepted, each of its rungs takes over
what the rung across it held (`across`), which is a permutation of the places because no two accepted
pairs share one.

Rungs are paired off from the front of a list, so both the pairs and the places across are compared
with those of the rest of the list, two places further on, or one where the coldest rung sits out
(`settle_add`, `across_add`). `exchangePairs_exchanged` goes along the list and
`exchangePhase_transposes` is about the round.
-/

namespace ThermalSearch.Tempering

/-! ## Pairs and the places across -/

/-- The pairs of neighbours that a round offers an exchange, each by its colder rung, among `rungs`
rungs. -/
def offeredPairs (round rungs : Nat) : List Nat :=
  List.range' (round % 2) ((rungs - round % 2) / 2) 2

/-- They are all the pairs of one parity. -/
theorem mem_offeredPairs {round rungs i : Nat} :
    i ∈ offeredPairs round rungs ↔ i % 2 = round % 2 ∧ i + 1 < rungs := by
  unfold offeredPairs
  rw [List.mem_range']
  constructor
  · rintro ⟨k, hk, rfl⟩
    omega
  · rintro ⟨hparity, hlast⟩
    exact ⟨(i - round % 2) / 2, by omega, by omega⟩

theorem pairwise_offeredPairs (round rungs : Nat) : (offeredPairs round rungs).Pairwise (· < ·) :=
  List.pairwise_lt_range' 2 (by decide)

/-- A pair needs two rungs. -/
theorem offeredPairs_eq_nil {rungs : Nat} (round : Nat) (hfew : rungs < 2) :
    offeredPairs round rungs = [] := by
  rw [List.eq_nil_iff_forall_not_mem]
  intro i hi
  have hlast := (mem_offeredPairs.mp hi).2
  omega

/-- After the coldest pair, the pairs are those of the other rungs, two places further on. -/
theorem offeredPairs_add_two (rungs : Nat) :
    offeredPairs 0 (rungs + 2) = 0 :: (offeredPairs 0 rungs).map (· + 2) := by
  have hpairs : (rungs + 2 - 0 % 2) / 2 = (rungs - 0 % 2) / 2 + 1 := by omega
  have hshift : (fun i => i + 2) = fun i => 2 + i := funext fun i => Nat.add_comm i 2
  unfold offeredPairs
  rw [hpairs, List.range'_succ, hshift, List.map_add_range']

/-- Without the coldest rung, the pairs are those of the other rungs, one place further on. -/
theorem offeredPairs_odd {round : Nat} (hodd : round % 2 = 1) (rungs : Nat) :
    offeredPairs round (rungs + 1) = (offeredPairs 0 rungs).map (· + 1) := by
  have hshift : (fun i => i + 1) = fun i => 1 + i := funext fun i => Nat.add_comm i 1
  unfold offeredPairs
  rw [hodd, hshift, List.map_add_range']
  rfl

/-- The place on the other side of an exchange. Where there is none, that is the place itself. -/
def across (swapped : List Nat) (k : Nat) : Nat :=
  if k ∈ swapped then k + 1 else if 0 < k ∧ k - 1 ∈ swapped then k - 1 else k

/-- Exchanges that lie beyond the first `c` places are those of the other places, `c` further on. -/
theorem across_add {swapped swapped' : List Nat} {c : Nat} (hrest : ∀ j, j + c ∈ swapped' ↔ j ∈ swapped)
    (hfirst : ∀ j, j + 1 = c → j ∉ swapped') (k : Nat) :
    across swapped' (k + c) = across swapped k + c := by
  unfold across
  by_cases hcold : k ∈ swapped
  · rw [if_pos hcold, if_pos ((hrest k).mpr hcold)]
    omega
  · rw [if_neg hcold, if_neg fun h => hcold ((hrest k).mp h)]
    have hhot : 0 < k + c ∧ k + c - 1 ∈ swapped' ↔ 0 < k ∧ k - 1 ∈ swapped := by
      cases k with
      | zero =>
        refine iff_of_false ?_ fun h => Nat.lt_irrefl 0 h.1
        rintro ⟨hpos, hmem⟩
        exact hfirst (0 + c - 1) (by omega) hmem
      | succ k =>
        have hplace : k + 1 + c - 1 = k + c := by omega
        rw [hplace, hrest, Nat.add_sub_cancel]
        exact and_congr_left fun _ => iff_of_true (by omega) (by omega)
    by_cases hswapped : 0 < k ∧ k - 1 ∈ swapped
    · rw [if_pos hswapped, if_pos (hhot.mpr hswapped)]
      omega
    · rw [if_neg hswapped, if_neg fun h => hswapped (hhot.mp h)]

/-- Exchanges that share no place are undone by themselves. -/
theorem across_across {swapped : List Nat} (hdisjoint : ∀ i ∈ swapped, i + 1 ∉ swapped) (k : Nat) :
    across swapped (across swapped k) = k := by
  by_cases hcold : k ∈ swapped
  · have hk : across swapped k = k + 1 := if_pos hcold
    rw [hk, across, if_neg (hdisjoint k hcold), if_pos ⟨Nat.succ_pos k, hcold⟩]
    rfl
  · by_cases hhot : 0 < k ∧ k - 1 ∈ swapped
    · have hk : across swapped k = k - 1 := by rw [across, if_neg hcold, if_pos hhot]
      rw [hk, across, if_pos hhot.2]
      omega
    · have hk : across swapped k = k := by rw [across, if_neg hcold, if_neg hhot]
      rw [hk, hk]

variable {α : Type} [Scalar α]

/-! ## Judging the pairs -/

/-- What is prescribed for the pair of the rungs `i` and `i + 1` by the energies they hold. -/
def prescribed (temperatures : List α) (replicas : List (Replica α)) (i : Nat) : Verdict α :=
  match temperatures[i]?, temperatures[i + 1]?, replicas[i]?, replicas[i + 1]? with
  | some cold, some hot, some a, some b => exchange cold hot a.energy b.energy
  | _, _, _, _ => .refuse

theorem prescribed_add (temperatures : List α) (replicas : List (Replica α)) (c i : Nat) :
    prescribed temperatures replicas (i + c) =
      prescribed (temperatures.drop c) (replicas.drop c) i := by
  have hplace : c + (i + 1) = i + c + 1 := by omega
  unfold prescribed
  rw [List.getElem?_drop, List.getElem?_drop, List.getElem?_drop, List.getElem?_drop, hplace,
    Nat.add_comm c i]

/-- Carries out what is prescribed for some pairs, one after the other: which of them are accepted, and
the generator that is left. -/
def settle (verdict : Nat → Verdict α) : List Nat → Generator → List Nat × Generator
  | [], g => ([], g)
  | i :: pairs, g =>
    let (accepted, g) := (verdict i).decide g
    let (swapped, g) := settle verdict pairs g
    (if accepted then i :: swapped else swapped, g)

theorem settle_cons (verdict : Nat → Verdict α) (i : Nat) (pairs : List Nat) (g : Generator) :
    settle verdict (i :: pairs) g =
      (if ((verdict i).decide g).1 then i :: (settle verdict pairs ((verdict i).decide g).2).1
        else (settle verdict pairs ((verdict i).decide g).2).1,
        (settle verdict pairs ((verdict i).decide g).2).2) := rfl

theorem settle_sublist (verdict : Nat → Verdict α) (pairs : List Nat) (g : Generator) :
    (settle verdict pairs g).1.Sublist pairs := by
  induction pairs generalizing g with
  | nil => exact List.Sublist.refl []
  | cons i pairs ih =>
    rw [settle_cons]
    dsimp only
    split
    · exact (ih _).cons_cons i
    · exact (ih _).cons i

/-- Pairs that are counted from another place are settled in the same way. -/
theorem settle_add (verdict : Nat → Verdict α) (c : Nat) (pairs : List Nat) (g : Generator) :
    settle verdict (pairs.map (· + c)) g =
      ((settle (fun i => verdict (i + c)) pairs g).1.map (· + c),
        (settle (fun i => verdict (i + c)) pairs g).2) := by
  induction pairs generalizing g with
  | nil => rfl
  | cons i pairs ih =>
    rw [List.map_cons, settle_cons, settle_cons, ih]
    dsimp only
    split <;> rfl

/-! ## Rungs and tallies -/

/-- A rung with the state and the energy of another. -/
def Replica.takeOver (r s : Replica α) : Replica α := { r with state := s.state, energy := s.energy }

/-- What is left of rungs and tallies after the pairs were offered an exchange: each rung has taken over
what the one across it held, and the tally of each pair has a record of the offer to it. -/
structure Exchanged (pairs : List Nat) (settled : List Nat × Generator) (replicas : List (Replica α))
    (tallies : List Tally) (left : Exchanges α) : Prop where
  replicas : ∀ k, left.replicas[k]? =
    replicas[k]?.bind fun r => replicas[across settled.1 k]?.map r.takeOver
  tallies : ∀ k, left.tallies[k]? =
    tallies[k]?.map fun t => if k ∈ pairs then t.record (k ∈ settled.1) else t
  generator : left.generator = settled.2

variable {pairs : List Nat} {settled : List Nat × Generator} {temperatures : List α}
  {replicas : List (Replica α)} {tallies : List Tally} {left : Exchanges α}

omit [Scalar α] in
/-- Where nobody is offered anything, everything is left as it is. -/
theorem exchanged_nil (g : Generator) :
    Exchanged [] ([], g) replicas tallies { replicas, tallies, generator := g } where
  replicas k := by
    have hself : across [] k = k := by simp [across]
    rw [hself]
    cases hk : replicas[k]? with
    | none => rfl
    | some r => rfl
  tallies k := by simp
  generator := rfl

theorem mem_map_add {l : List Nat} {c k : Nat} : k + c ∈ l.map (· + c) ↔ k ∈ l := by
  rw [List.mem_map]
  constructor
  · rintro ⟨j, hj, hsame⟩
    exact Nat.add_right_cancel hsame ▸ hj
  · intro hk
    exact ⟨k, hk, rfl⟩

theorem not_mem_map_add {l : List Nat} {c k : Nat} (hk : k < c) : k ∉ l.map (· + c) := by
  rw [List.mem_map]
  rintro ⟨j, -, hsame⟩
  omega

omit [Scalar α] in
/-- The tallies after the first one are those of the other pairs, and the first one is left alone. -/
theorem Exchanged.getElem?_tallies (h : Exchanged pairs settled replicas (tallies.drop 1) left)
    (k : Nat) : (tallies.take 1 ++ left.tallies)[k]? =
      tallies[k]?.map fun t => if 0 < k ∧ k - 1 ∈ pairs then t.record (k - 1 ∈ settled.1) else t := by
  cases tallies with
  | nil => simpa using h.tallies k
  | cons t tallies =>
    cases k with
    | zero => simp
    | succ k => simpa using h.tallies k

omit [Scalar α] in
/-- The coldest rung sits out, and the others make their exchanges. -/
theorem Exchanged.sitOut (h : Exchanged pairs settled replicas (tallies.drop 1) left) (r : Replica α) :
    Exchanged (pairs.map (· + 1)) (settled.1.map (· + 1), settled.2) (r :: replicas) tallies
      { replicas := r :: left.replicas, tallies := tallies.take 1 ++ left.tallies,
        generator := left.generator } where
  replicas k := by
    cases k with
    | zero =>
      have hself : across (settled.1.map (· + 1)) 0 = 0 := by simp [across]
      rw [hself]
      rfl
    | succ k =>
      have hplace : across (settled.1.map (· + 1)) (k + 1) = across settled.1 k + 1 :=
        across_add (fun _ => mem_map_add) (fun j hj => not_mem_map_add (by omega)) k
      rw [hplace]
      exact h.replicas k
  tallies k := by
    rw [h.getElem?_tallies]
    cases k with
    | zero => simp
    | succ k => simp
  generator := h.generator

omit [Scalar α] in
/-- The two coldest rungs are a pair, the next tally belongs to the pair across, and the others make
their exchanges. -/
theorem Exchanged.pairOff (h : Exchanged pairs settled replicas (tallies.drop 1) left) (a b : Replica α)
    (tally : Tally) (accepted : Bool) :
    Exchanged (0 :: pairs.map (· + 2))
      (if accepted then 0 :: settled.1.map (· + 2) else settled.1.map (· + 2), settled.2)
      (a :: b :: replicas) (tally :: tallies)
      { replicas := (if accepted then a.swap b else (a, b)).1 ::
          (if accepted then a.swap b else (a, b)).2 :: left.replicas
        tallies := tally.record accepted :: (tallies.take 1 ++ left.tallies)
        generator := left.generator } := by
  have hcold : 0 ∈ (if accepted then 0 :: settled.1.map (· + 2)
      else settled.1.map (· + 2)) ↔ accepted := by
    cases accepted <;> simp
  have hhot : 1 ∉ (if accepted then 0 :: settled.1.map (· + 2) else settled.1.map (· + 2)) := by
    cases accepted <;> simp
  have hrest : ∀ j, j + 2 ∈ (if accepted then 0 :: settled.1.map (· + 2)
      else settled.1.map (· + 2)) ↔ j ∈ settled.1 := by
    intro j
    cases accepted <;> simp
  -- which places were swapped matters only as far as these three say
  generalize (if accepted then 0 :: settled.1.map (· + 2) else settled.1.map (· + 2)) = swapped
    at hcold hhot hrest
  refine ⟨?_, ?_, h.generator⟩
  · intro k
    rcases k with _ | _ | k
    · cases accepted with
      | false =>
        have hself : across swapped 0 = 0 := by simp [across, hcold]
        rw [hself]
        rfl
      | true =>
        have hplace : across swapped 0 = 1 := by simp [across, hcold]
        rw [hplace]
        rfl
    · cases accepted with
      | false =>
        have hself : across swapped 1 = 1 := by simp [across, hcold, hhot]
        rw [hself]
        rfl
      | true =>
        have hplace : across swapped 1 = 0 := by simp [across, hcold, hhot]
        rw [hplace]
        rfl
    · have hplace : across swapped (k + 2) = across settled.1 k + 2 := by
        refine across_add hrest ?_ k
        rintro _ ⟨⟩
        exact hhot
      rw [hplace]
      exact h.replicas k
  · intro k
    rcases k with _ | k
    · simp [hcold]
    · have hlater : (tally.record accepted :: (tallies.take 1 ++ left.tallies))[k + 1]? =
          (tallies.take 1 ++ left.tallies)[k]? := rfl
      rw [hlater, h.getElem?_tallies]
      cases k with
      | zero => simp
      | succ k => simp [hrest]

/-! ## Rounds -/

/-- Rungs that are paired off from the first one on make the exchanges of these pairs. -/
theorem exchangePairs_exchanged (g : Generator)
    (htemperatures : temperatures.length = replicas.length)
    (htallies : tallies.length = replicas.length - 1) :
    Exchanged (offeredPairs 0 replicas.length)
      (settle (prescribed temperatures replicas) (offeredPairs 0 replicas.length) g)
      replicas tallies (exchangePairs temperatures replicas tallies g) := by
  fun_induction exchangePairs temperatures replicas tallies g with
  | case1 cold hot temperatures a b replicas tally tallies g accepted g' hdecide a' b' hpair rest
      ih =>
    simp only [List.length_cons] at htemperatures htallies
    have hexchanged := (ih (by omega) (by rw [List.length_drop]; omega)).pairOff a b tally accepted
    rw [hpair] at hexchanged
    have hverdict : prescribed (cold :: hot :: temperatures) (a :: b :: replicas) 0 =
        exchange cold hot a.energy b.energy := rfl
    have hverdicts : (fun i => prescribed (cold :: hot :: temperatures) (a :: b :: replicas) (i + 2)) =
        prescribed temperatures replicas :=
      funext fun i => prescribed_add _ _ 2 i
    rw [List.length_cons, List.length_cons, offeredPairs_add_two, settle_cons, settle_add, hverdicts,
      hverdict, hdecide]
    exact hexchanged
  | case2 temperatures replicas tallies g hfew =>
    have hnone : offeredPairs 0 replicas.length = [] := by
      rcases replicas with _ | ⟨a, _ | ⟨b, replicas⟩⟩
      · exact offeredPairs_eq_nil 0 (by simp)
      · exact offeredPairs_eq_nil 0 (by simp)
      · -- there would be a pair to be paired off
        obtain ⟨cold, hot, temperatures, rfl⟩ :
            ∃ cold hot rest, temperatures = cold :: hot :: rest := by
          rcases temperatures with _ | ⟨cold, _ | ⟨hot, temperatures⟩⟩
          · simp at htemperatures
          · simp at htemperatures
          · exact ⟨cold, hot, temperatures, rfl⟩
        cases tallies with
        | nil => simp at htallies
        | cons tally tallies =>
          exact absurd rfl (hfew cold hot temperatures a b replicas tally tallies rfl rfl)
    rw [hnone]
    exact exchanged_nil g

/-- In an odd round the coldest rung sits out. -/
theorem exchangePhase_exchanged (round : Nat) (g : Generator)
    (htemperatures : temperatures.length = replicas.length)
    (htallies : tallies.length = replicas.length - 1) :
    Exchanged (offeredPairs round replicas.length)
      (settle (prescribed temperatures replicas) (offeredPairs round replicas.length) g)
      replicas tallies (exchangePhase round temperatures replicas tallies g) := by
  unfold exchangePhase
  by_cases heven : round % 2 = 0
  · have hpairs : offeredPairs round replicas.length = offeredPairs 0 replicas.length := by
      unfold offeredPairs
      rw [heven]
    rw [if_pos heven, hpairs]
    exact exchangePairs_exchanged g htemperatures htallies
  · rw [if_neg heven]
    have hrest : Exchanged (offeredPairs 0 (replicas.drop 1).length)
        (settle (prescribed (temperatures.drop 1) (replicas.drop 1))
          (offeredPairs 0 (replicas.drop 1).length) g) (replicas.drop 1) (tallies.drop 1)
        (exchangePairs (temperatures.drop 1) (replicas.drop 1) (tallies.drop 1) g) := by
      apply exchangePairs_exchanged
      · rw [List.length_drop, List.length_drop, htemperatures]
      · rw [List.length_drop, List.length_drop, htallies]
    cases replicas with
    | nil =>
      rw [offeredPairs_eq_nil round (by simp), List.eq_nil_of_length_eq_zero htallies,
        List.eq_nil_of_length_eq_zero htemperatures]
      exact exchanged_nil g
    | cons r replicas =>
      have hverdicts : (fun i => prescribed temperatures (r :: replicas) (i + 1)) =
          prescribed (temperatures.drop 1) replicas :=
        funext fun i => prescribed_add temperatures (r :: replicas) 1 i
      rw [List.length_cons, offeredPairs_odd (by omega), settle_add, hverdicts]
      exact hrest.sitOut r

/-- The exchanges of a round, for every number of rungs and either parity. The pairs that are offered an
exchange are all those of the round's parity, in ascending order; they are judged one after the other by
what the rungs held before the round, and those accepted share no rung. Each rung of an accepted pair
takes over the state and the energy of the other, together; it keeps everything else, and the other rungs
keep these as well, so that states and energies are rearranged and none is torn apart, lost or doubled.
The tally of a pair counts an attempt if the pair was offered an exchange, an acceptance if it took it,
and stays as it is if it was not. -/
theorem exchangePhase_transposes (round : Nat) (g : Generator)
    (htemperatures : temperatures.length = replicas.length)
    (htallies : tallies.length = replicas.length - 1) :
    let pairs := offeredPairs round replicas.length
    let settled := settle (prescribed temperatures replicas) pairs g
    let left := exchangePhase round temperatures replicas tallies g
    (∀ i, i ∈ pairs ↔ i % 2 = round % 2 ∧ i + 1 < replicas.length) ∧ pairs.Pairwise (· < ·) ∧
      settled.1.Sublist pairs ∧ (∀ i ∈ settled.1, i + 1 ∉ settled.1) ∧
      left.generator = settled.2 ∧
      left.replicas.length = replicas.length ∧
      (∀ k < replicas.length, ∃ r s, replicas[k]? = some r ∧
        replicas[across settled.1 k]? = some s ∧
        left.replicas[k]? = some { r with state := s.state, energy := s.energy }) ∧
      (∀ k, across settled.1 (across settled.1 k) = k) ∧
      (left.replicas.map Replica.visit).Perm (replicas.map Replica.visit) ∧
      left.tallies.length = tallies.length ∧
      ∀ k < tallies.length, ∃ t, tallies[k]? = some t ∧
        let offers := if k ∈ pairs then 1 else 0
        let swaps := if k ∈ settled.1 then 1 else 0
        left.tallies[k]? = some
          { attempts := t.attempts + offers, accepts := t.accepts + swaps,
            recentAttempts := t.recentAttempts + offers,
            recentAccepts := t.recentAccepts + swaps } := by
  intro pairs settled left
  have hexchanged : Exchanged pairs settled replicas tallies left :=
    exchangePhase_exchanged round g htemperatures htallies
  have hsublist : settled.1.Sublist pairs := settle_sublist _ pairs g
  -- two places next to each other differ in their parity
  have hdisjoint : ∀ i ∈ settled.1, i + 1 ∉ settled.1 := by
    intro i hi hnext
    have hparity := (mem_offeredPairs.mp (hsublist.subset hi)).1
    have hparity' := (mem_offeredPairs.mp (hsublist.subset hnext)).1
    omega
  have hreplicas : left.replicas.length = replicas.length := length_exchangePhase _ _ _ _ _
  refine ⟨fun i => mem_offeredPairs, pairwise_offeredPairs round _, hsublist, hdisjoint,
    hexchanged.generator, hreplicas, ?_, across_across hdisjoint,
    exchangePhase_visits_perm _ _ _ _ _, length_tallies_exchangePhase _ _ _ _ _, ?_⟩
  · intro k hk
    -- the rung across is there, since the round leaves as many rungs as there were
    obtain ⟨r', hr'⟩ : ∃ r', left.replicas[k]? = some r' :=
      ⟨_, List.getElem?_eq_getElem (hreplicas.symm ▸ hk)⟩
    have htaken := hexchanged.replicas k
    rw [hr', eq_comm, Option.bind_eq_some_iff] at htaken
    obtain ⟨r, hr, htaken⟩ := htaken
    obtain ⟨s, hs, htaken⟩ := Option.map_eq_some_iff.mp htaken
    refine ⟨r, s, hr, hs, ?_⟩
    rw [hr', ← htaken]
    rfl
  · intro k hk
    refine ⟨tallies[k], List.getElem?_eq_getElem hk, ?_⟩
    rw [hexchanged.tallies k, List.getElem?_eq_getElem hk, Option.map_some]
    by_cases hoffered : k ∈ pairs
    · rw [if_pos hoffered, if_pos hoffered]
      by_cases hswapped : k ∈ settled.1
      · simp [Tally.record, hswapped]
      · simp [Tally.record, hswapped]
    · have hswapped : k ∉ settled.1 := fun h => hoffered (hsublist.subset h)
      rw [if_neg hoffered, if_neg hoffered, if_neg hswapped]
      rfl

/-- Three rungs, the coldest of which holds the worst state. -/
def inverted : List (Replica Float) :=
  [Replica.start [5.0] 5.0 (Generator.ofSeed 1), Replica.start [1.0] 1.0 (Generator.ofSeed 2),
    Replica.start [3.0] 3.0 (Generator.ofSeed 3)]

/-- The better state sinks to the coldest rung, and the hottest rung sits the round out. -/
theorem exchangePhase_transposes_inverted :
    let temperatures : List Float := [1.0, 2.0, 4.0]
    let tallies : List Tally := [{}, { attempts := 3, accepts := 1 }]
    let left := exchangePhase 0 temperatures inverted tallies (Generator.ofSeed 0)
    temperatures.length = inverted.length ∧ tallies.length = inverted.length - 1 ∧
      left.replicas[0]? = some { Replica.start [5.0] 5.0 (Generator.ofSeed 1) with
        state := [1.0], energy := 1.0 } ∧
      left.replicas[2]? = inverted[2]? ∧
      left.tallies[0]? =
        some { attempts := 1, accepts := 1, recentAttempts := 1, recentAccepts := 1 } ∧
      left.tallies[1]? = some { attempts := 3, accepts := 1 } ∧
      left.generator = Generator.ofSeed 0 := by
  intro temperatures tallies left
  have htemperatures : temperatures.length = inverted.length := rfl
  have htallies : tallies.length = inverted.length - 1 := rfl
  -- the gain is two, so nothing is drawn
  have hverdict : prescribed temperatures inverted 0 = .accept := by
    have hgain : (1.0 / 1.0 - 1.0 / 2.0) * (5.0 - 1.0 : Float) > 0.0 := by decide
    have hdefined : ¬ Scalar.isNaN ((1.0 / 1.0 - 1.0 / 2.0) * (5.0 - 1.0) : Float) := by decide
    show exchange 1.0 2.0 5.0 1.0 = .accept
    rw [exchange, if_neg hdefined, if_pos hgain]
  have hsettled : settle (prescribed temperatures inverted) (offeredPairs 0 inverted.length)
      (Generator.ofSeed 0) = ([0], Generator.ofSeed 0) := by
    show settle _ [0] _ = _
    rw [settle_cons, hverdict]
    rfl
  obtain ⟨-, -, -, -, hgenerator, -, hreplicas, -, -, -, htallied⟩ :=
    exchangePhase_transposes 0 (Generator.ofSeed 0) htemperatures htallies
  rw [hsettled] at hgenerator hreplicas htallied
  obtain ⟨a, b, ha, hb, hcold⟩ := hreplicas 0 (by decide)
  obtain ⟨c, c', hc, hc', hhot⟩ := hreplicas 2 (by decide)
  obtain ⟨t, ht, hfirst⟩ := htallied 0 (by decide)
  obtain ⟨t', ht', hsecond⟩ := htallied 1 (by decide)
  cases ha
  cases hb
  cases hc
  cases hc'
  cases ht
  cases ht'
  exact ⟨rfl, rfl, hcold, hhot, hfirst, hsecond, hgenerator⟩

end ThermalSearch.Tempering

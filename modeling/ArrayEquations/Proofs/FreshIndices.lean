import ArrayEquations.Index
import Mathlib.Data.List.Nodup
import Mathlib.Data.List.Perm.Subperm

/-!
# ArrayEquations — fresh indices

A scope hands out symbols that are not in scope. It tries one more round of letters than
there are symbols in scope, so by the pigeonhole principle it always finds one. The symbols that
it hands out first are those that it tries first: the letters of the alphabet, then the letters
with one prime, and so on.

## Main definitions

* `IndexScope.Opens` — a scope with new symbols.
* `IndexScope.firstSymbols` — the first symbols of an alphabet.
* `IndexScope.HandsOut` — symbols that a scope hands out one after the other.

## Main results

* `alphabetLetters_ne_nil` — every alphabet has a letter.
* `IndexScope.next_not_mem_live` — a new symbol is not in scope.
* `IndexScope.HandsOut.opens` — symbols that are handed out are new.
* `IndexScope.freshMany_ofAlphabet` — the symbols that are handed out first.
-/

namespace ArrayEquations

theorem alphabetLetters_ne_nil (alphabet : String) : alphabetLetters alphabet ≠ [] := by
  unfold alphabetLetters
  simp only
  split
  · decide
  · rename_i hEmpty
    simpa using hEmpty

/-- The first occurrences of the members of a list differ. -/
theorem nodup_eraseDups {α : Type*} [BEq α] [LawfulBEq α] (as : List α) :
    as.eraseDups.Nodup := by
  -- The rest of the list is filtered, so the induction is on the length.
  induction hLength : as.length using Nat.strongRecOn generalizing as with
  | _ n ih =>
    cases as with
    | nil => exact List.nodup_nil
    | cons a as =>
      rw [List.eraseDups_cons, List.nodup_cons]
      constructor
      · intro ha
        simpa using (List.mem_filter.mp (List.mem_eraseDups.mp ha)).2
      · apply ih _ _ _ rfl
        have := List.length_filter_le (fun b => !b == a) as
        rw [List.length_cons] at hLength
        omega

theorem nodup_alphabetLetters (alphabet : String) : (alphabetLetters alphabet).Nodup := by
  unfold alphabetLetters
  simp only
  split
  · decide
  · exact nodup_eraseDups _

namespace IndexScope

theorem mem_candidates {letters : List Char} {letter : Char} {rounds primes : Nat}
    (hLetter : letter ∈ letters) (hPrimes : primes < rounds) :
    (⟨letter, primes⟩ : Index) ∈ candidates letters rounds :=
  List.mem_flatMap.mpr
    ⟨primes, List.mem_range.mpr hPrimes, List.mem_map.mpr ⟨letter, hLetter, rfl⟩⟩

/-- With more rounds of letters than symbols in scope some candidate is not in scope. -/
theorem exists_candidate (s : IndexScope) (hLetters : s.letters ≠ []) :
    ∃ i ∈ candidates s.letters (s.live.length + 1), i ∉ s.live := by
  by_contra hNone
  obtain ⟨letter, hLetter⟩ := List.exists_mem_of_ne_nil _ hLetters
  -- One letter with all numbers of primes gives more symbols than are in scope.
  let row : List Index := (List.range (s.live.length + 1)).map fun primes => ⟨letter, primes⟩
  have hNodup : row.Nodup := by
    apply List.Nodup.map _ List.nodup_range
    intro a b hEq
    exact (Index.mk.inj hEq).2
  have hSubset : row ⊆ s.live := by
    intro i hi
    obtain ⟨primes, hPrimes, rfl⟩ := List.mem_map.mp hi
    by_contra hFree
    exact hNone ⟨_, mem_candidates hLetter (List.mem_range.mp hPrimes), hFree⟩
  have hLength := (List.subperm_of_subset hNodup hSubset).length_le
  rw [List.length_map, List.length_range] at hLength
  omega

/-- A new symbol is not in scope. -/
theorem next_not_mem_live (s : IndexScope) (hLetters : s.letters ≠ []) :
    s.next ∉ s.live := by
  obtain ⟨i, hi, hFree⟩ := s.exists_candidate hLetters
  unfold next
  cases hFind : (candidates s.letters (s.live.length + 1)).find? (!s.live.contains ·) with
  | none =>
    have := List.find?_eq_none.mp hFind i hi
    simp [hFree] at this
  | some j =>
    have := List.find?_some hFind
    simpa using this

/-- The second scope has the new symbols on top of the first one. -/
structure Opens (scope : IndexScope) (bound : List Index) (inner : IndexScope) : Prop where
  letters_eq : inner.letters = scope.letters
  live_eq : inner.live = scope.live ++ bound
  nodup : bound.Nodup
  fresh : ∀ i ∈ bound, i ∉ scope.live

namespace Opens

variable {scope inner : IndexScope} {bound : List Index}

theorem nil (scope : IndexScope) : scope.Opens [] scope :=
  ⟨rfl, (List.append_nil _).symm, List.nodup_nil, fun _ hi => absurd hi List.not_mem_nil⟩

theorem cons (hLetters : scope.letters ≠ []) (h : scope.fresh.2.Opens bound inner) :
    scope.Opens (scope.next :: bound) inner := by
  have hLive : scope.fresh.2.live = scope.live ++ [scope.next] := rfl
  refine ⟨h.letters_eq, ?_, ?_, ?_⟩
  · rw [h.live_eq, hLive, List.append_assoc]
    rfl
  · rw [List.nodup_cons]
    refine ⟨?_, h.nodup⟩
    intro hMem
    apply h.fresh _ hMem
    rw [hLive]
    exact List.mem_append_right _ List.mem_cons_self
  · intro i hi
    rcases List.mem_cons.mp hi with rfl | hi
    · exact scope.next_not_mem_live hLetters
    · intro hMem
      apply h.fresh i hi
      rw [hLive]
      exact List.mem_append_left _ hMem

theorem subset (h : scope.Opens bound inner) : scope.live ⊆ inner.live := by
  rw [h.live_eq]
  exact List.subset_append_left _ _

/-- Closing the new symbols leads back to the first scope. -/
theorem release (h : scope.Opens bound inner) : inner.release scope.mark = scope := by
  rw [IndexScope.release, IndexScope.mark, h.live_eq, List.take_left' rfl, h.letters_eq]

theorem mem_live (h : scope.Opens bound inner) {i : Index} (hi : i ∈ bound) :
    i ∈ inner.live := by
  rw [h.live_eq]
  exact List.mem_append_right _ hi

end Opens

/-! ## The order of symbols -/

/-- The first symbols of an alphabet. -/
def firstSymbols (letters : List Char) (n : Nat) : List Index := (candidates letters n).take n

variable {letters : List Char}

theorem candidates_add (letters : List Char) (m n : Nat) : candidates letters (m + n) =
    candidates letters m ++ (List.range n).flatMap fun primes =>
      letters.map fun letter => ⟨letter, m + primes⟩ := by
  rw [candidates, List.range_add, List.flatMap_append, List.flatMap_map]
  rfl

theorem length_candidates (letters : List Char) (rounds : Nat) :
    (candidates letters rounds).length = rounds * letters.length := by
  induction rounds with
  | zero => rw [candidates, List.range_zero, List.flatMap_nil, List.length_nil, Nat.zero_mul]
  | succ rounds ih =>
    rw [candidates_add, List.length_append, ih, Nat.succ_mul]
    simp

theorem nodup_candidates (hNodup : letters.Nodup) (rounds : Nat) :
    (candidates letters rounds).Nodup := by
  rw [candidates, List.nodup_flatMap]
  constructor
  · -- within a round the letters differ
    intro primes _
    exact hNodup.map fun a b hEq => (Index.mk.inj hEq).1
  · -- and between rounds the numbers of primes do
    refine List.nodup_range.imp fun hDiffer => ?_
    show List.Disjoint _ _
    intro i hi hj
    obtain ⟨_, _, rfl⟩ := List.mem_map.mp hi
    obtain ⟨_, _, hEq⟩ := List.mem_map.mp hj
    exact hDiffer (Index.mk.inj hEq).2.symm

/-- There are at least as many candidates as rounds. -/
theorem le_length_candidates (hLetters : letters ≠ []) (rounds : Nat) :
    rounds ≤ (candidates letters rounds).length := by
  rw [length_candidates]
  exact Nat.le_mul_of_pos_right rounds (List.length_pos_iff.mpr hLetters)

theorem length_firstSymbols (hLetters : letters ≠ []) (n : Nat) :
    (firstSymbols letters n).length = n := by
  rw [firstSymbols, List.length_take, Nat.min_eq_left (le_length_candidates hLetters n)]

/-- With more rounds the first symbols stay. -/
theorem take_candidates_succ (hLetters : letters ≠ []) (n : Nat) :
    (candidates letters (n + 1)).take n = firstSymbols letters n := by
  rw [candidates_add, List.take_append_of_le_length (le_length_candidates hLetters n)]
  rfl

/-- Of different elements of which the first ones are taken, the next one is the first that is
left. -/
private theorem find?_not_taken {α : Type} [BEq α] [LawfulBEq α] {as : List α} (hNodup : as.Nodup)
    {k : Nat} (hk : k < as.length) : as.find? (!(as.take k).contains ·) = some as[k] := by
  rw [List.find?_eq_some_iff_getElem]
  refine ⟨?_, k, hk, rfl, ?_⟩
  · -- the next one is not taken, since it occurs only once
    rw [Bool.not_eq_true', ← Bool.not_eq_true, List.contains_iff_mem]
    intro hMem
    obtain ⟨j, hj, hEq⟩ := List.mem_take_iff_getElem.mp hMem
    have hSame := hNodup.getElem_inj_iff.mp hEq
    exact absurd hSame (Nat.ne_of_lt (Nat.lt_of_lt_of_le hj (Nat.min_le_left _ _)))
  · -- all before it are taken
    intro j hj
    have hTaken : as[j] ∈ as.take k :=
      List.mem_take_iff_getElem.mpr ⟨j, Nat.lt_min.mpr ⟨hj, Nat.lt_trans hj hk⟩, rfl⟩
    rw [List.contains_iff_mem.mpr hTaken]
    rfl

/-- When the first symbols are in scope, the next one is brought into scope. -/
theorem fresh_firstSymbols (hLetters : letters ≠ []) (hNodup : letters.Nodup) (n : Nat) :
    (⟨letters, firstSymbols letters n⟩ : IndexScope).fresh.2 =
      ⟨letters, firstSymbols letters (n + 1)⟩ := by
  have hLt : n < (candidates letters (n + 1)).length := le_length_candidates hLetters (n + 1)
  have hNext : (⟨letters, firstSymbols letters n⟩ : IndexScope).next =
      (candidates letters (n + 1))[n] := by
    unfold next
    rw [length_firstSymbols hLetters]
    simp only
    rw [← take_candidates_succ hLetters n, find?_not_taken (nodup_candidates hNodup _) hLt]
    rfl
  show (⟨letters, firstSymbols letters n ++ [next _]⟩ : IndexScope) = _
  rw [hNext, ← take_candidates_succ hLetters n, List.take_append_getElem hLt]
  rfl

theorem live_freshMany (scope : IndexScope) (n : Nat) :
    (scope.freshMany n).2.live = scope.live ++ (scope.freshMany n).1 := by
  induction n generalizing scope with
  | zero => exact (List.append_nil _).symm
  | succ n ih =>
    show (scope.fresh.2.freshMany n).2.live = _
    rw [ih]
    exact List.append_assoc _ _ _

theorem freshMany_add (scope : IndexScope) (m n : Nat) :
    (scope.freshMany (m + n)).1 =
      (scope.freshMany m).1 ++ ((scope.freshMany m).2.freshMany n).1 := by
  induction m generalizing scope with
  | zero => rw [Nat.zero_add]; rfl
  | succ m ih =>
    rw [Nat.succ_add]
    exact congrArg (scope.next :: ·) (ih scope.fresh.2)

/-- The symbols that are handed out first stay the same when more are handed out. -/
theorem mem_freshMany_max (scope : IndexScope) (m n : Nat) (i : Index) :
    i ∈ (scope.freshMany (max m n)).1 ↔ i ∈ (scope.freshMany m).1 ∨ i ∈ (scope.freshMany n).1 := by
  have hMono : ∀ {k l : Nat}, k ≤ l → (scope.freshMany k).1 ⊆ (scope.freshMany l).1 := by
    intro k l hLe
    obtain ⟨d, rfl⟩ := Nat.exists_eq_add_of_le hLe
    rw [freshMany_add]
    exact List.subset_append_left _ _
  constructor
  · rcases Nat.le_total m n with hLe | hLe
    · rw [Nat.max_eq_right hLe]
      exact Or.inr
    · rw [Nat.max_eq_left hLe]
      exact Or.inl
  · rintro (hi | hi)
    · exact hMono (Nat.le_max_left m n) hi
    · exact hMono (Nat.le_max_right m n) hi

/-- **The symbols that are handed out first are the first symbols of the alphabet.** -/
theorem freshMany_ofAlphabet (alphabet : String) (n : Nat) :
    ((ofAlphabet alphabet).freshMany n).1 = firstSymbols (alphabetLetters alphabet) n := by
  have hLetters := alphabetLetters_ne_nil alphabet
  have hNodup := nodup_alphabetLetters alphabet
  -- Once the first `k` symbols are in scope, the next ones follow on them.
  have hFrom : ∀ k, ((⟨alphabetLetters alphabet, firstSymbols (alphabetLetters alphabet) k⟩ :
      IndexScope).freshMany n).2.live = firstSymbols (alphabetLetters alphabet) (k + n) := by
    induction n with
    | zero => exact fun k => rfl
    | succ n ih =>
      intro k
      show ((IndexScope.fresh _).2.freshMany n).2.live = _
      rw [fresh_firstSymbols hLetters hNodup, ih, Nat.add_assoc, Nat.add_comm 1]
  have hLive := hFrom 0
  rw [live_freshMany, Nat.zero_add] at hLive
  exact hLive

/-! ## Symbols in a row -/

/-- The symbols are handed out one after the other, and nothing else changes. -/
def HandsOut (scope : IndexScope) (bound : List Index) (inner : IndexScope) : Prop :=
  scope.freshMany bound.length = (bound, inner)

variable {scope inner : IndexScope} {bound : List Index}

theorem HandsOut.nil (scope : IndexScope) : scope.HandsOut [] scope := rfl

theorem HandsOut.cons (h : scope.fresh.2.HandsOut bound inner) :
    scope.HandsOut (scope.next :: bound) inner := by
  show (scope.next :: (scope.fresh.2.freshMany bound.length).1,
    (scope.fresh.2.freshMany bound.length).2) = _
  rw [show scope.fresh.2.freshMany bound.length = (bound, inner) from h]

/-- Symbols that are handed out are new. -/
theorem HandsOut.opens (h : scope.HandsOut bound inner) (hLetters : scope.letters ≠ []) :
    scope.Opens bound inner := by
  have hFrom : ∀ (n : Nat) (scope : IndexScope), scope.letters ≠ [] →
      scope.Opens (scope.freshMany n).1 (scope.freshMany n).2 := by
    intro n
    induction n with
    | zero => exact fun scope _ => .nil scope
    | succ n ih => exact fun scope hLetters => .cons hLetters (ih scope.fresh.2 hLetters)
  have hOpens := hFrom bound.length scope hLetters
  rwa [show scope.freshMany bound.length = (bound, inner) from h] at hOpens

end IndexScope

end ArrayEquations

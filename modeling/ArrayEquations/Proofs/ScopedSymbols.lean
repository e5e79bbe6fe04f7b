import ArrayEquations.Proofs.FreshIndices
import Mathlib.Data.List.Pairwise
import Mathlib.Logic.Relation

/-!
# ArrayEquations — symbols in nested scopes

A search for a new symbol goes round by round: the letters without primes, then the letters with
one prime, and so on. The number of primes is counted in eight bits and stays at 255 once it gets
there, so a search ends only if a symbol with no more primes is left. With fewer symbols in scope
than there are such symbols one is always left, and the search ends with the first one that is not
in scope.

Symbols are brought into scope at the end of the list of live ones, and a mark is a length of that
list. So whatever is done after a mark was set, the symbols that were live then are the first ones
of the list as long as no older mark is released, and releasing the mark leaves just these.

## Main definitions

* `Arranged` — letters are in the order in which they first occur in a text.
* `Index.Precedes` — the order in which symbols are tried.
* `IndexScope.Finds` — a search that begins with a round ends with a symbol.
* `IndexScope.FirstFree` — a symbol is the first that is not in scope.
* `IndexScope.search?` — what a search ends with, and none if it does not end.
* `ScopeUse` — a scope with the marks that are set, and `ScopeUse.Step`, what can be done with it.

## Main results

* `IndexScope.Finds.firstFree`, `IndexScope.firstFree_next` — a search ends with the first symbol
  that is not in scope, and so does the search in a list of candidates.
* `IndexScope.exists_finds`, `IndexScope.search?_eq_next` — with fewer than 256 symbols in scope for
  each letter it ends, with the next symbol.
* `IndexScope.finds_iff` — the search in rounds and the search in the list of those that can be
  counted agree.
* `ScopeUse.Step.sound` — every action keeps the live symbols apart and the marks nested.
* `ScopeUse.allocation_scoped` — what holds after any actions.
-/

namespace ArrayEquations

/-! ## The letters of an alphabet -/

/-- The text whose characters are the letters: the alphabet, or the default one if all characters
of the alphabet are blank. -/
def letterSource (alphabet : String) : List Char :=
  if (alphabet.toList.filter (!isBlank ·)).isEmpty then defaultAlphabet.toList else alphabet.toList

theorem alphabetLetters_eq (alphabet : String) :
    alphabetLetters alphabet = ((letterSource alphabet).filter (!isBlank ·)).eraseDups := by
  unfold alphabetLetters letterSource
  by_cases hBlank : (alphabet.toList.filter (!isBlank ·)).isEmpty = true
  · have hNone : ((alphabet.toList.filter (!isBlank ·)).eraseDups).isEmpty = true := by
      rw [List.isEmpty_iff.mp hBlank]
      rfl
    rw [if_pos hBlank]
    simp only [hNone, if_true]
    decide +kernel
  · have hSome : ¬ ((alphabet.toList.filter (!isBlank ·)).eraseDups).isEmpty = true := by
      intro hNone
      obtain ⟨c, hc⟩ := List.exists_mem_of_ne_nil _ (fun h => hBlank (List.isEmpty_iff.mpr h))
      have := List.mem_eraseDups.mpr hc
      rw [List.isEmpty_iff.mp hNone] at this
      exact absurd this List.not_mem_nil
    rw [if_neg hBlank]
    simp only [hSome]
    rfl

/-- The letters are the characters that are not blank. -/
theorem mem_alphabetLetters {alphabet : String} {c : Char} :
    c ∈ alphabetLetters alphabet ↔ c ∈ letterSource alphabet ∧ isBlank c = false := by
  rw [alphabetLetters_eq, List.mem_eraseDups, List.mem_filter, Bool.not_eq_true']

/-- The letters are in the order in which they first occur in the source. -/
def Arranged (source letters : List Char) : Prop :=
  letters.Pairwise fun c d => source.idxOf c < source.idxOf d

/-- Characters that are kept once each are in the order of their first occurrences. -/
theorem arranged_eraseDups_filter (cs : List Char) (keep : Char → Bool) :
    Arranged cs (cs.filter keep).eraseDups := by
  unfold Arranged
  -- The condition is arbitrary in the induction, since later occurrences of a character that is
  -- kept do not count.
  induction cs generalizing keep with
  | nil => exact List.Pairwise.nil
  | cons a cs ih =>
    -- what differs from the first character occurs one place later with it in front
    have hLater : ∀ c d : Char, c ≠ a → d ≠ a → cs.idxOf c < cs.idxOf d →
        (a :: cs).idxOf c < (a :: cs).idxOf d := by
      intro c d hc hd hLt
      rw [List.idxOf_cons_ne _ (Ne.symm hc), List.idxOf_cons_ne _ (Ne.symm hd)]
      omega
    by_cases hKeep : keep a = true
    · rw [List.filter_cons_of_pos hKeep, List.eraseDups_cons, List.filter_filter,
        List.pairwise_cons]
      have hOther : ∀ c ∈ ((cs.filter fun c => !c == a && keep c).eraseDups), c ≠ a := by
        intro c hc
        have hc := (List.mem_filter.mp (List.mem_eraseDups.mp hc)).2
        simp only [Bool.and_eq_true, Bool.not_eq_true', beq_eq_false_iff_ne] at hc
        exact hc.1
      constructor
      · intro d hd
        rw [List.idxOf_cons_self, List.idxOf_cons_ne _ (Ne.symm (hOther d hd))]
        omega
      · exact (ih fun c => !c == a && keep c).imp_of_mem fun hc hd =>
          hLater _ _ (hOther _ hc) (hOther _ hd)
    · rw [List.filter_cons_of_neg hKeep]
      have hOther : ∀ c ∈ (cs.filter keep).eraseDups, c ≠ a := by
        rintro c hc rfl
        exact hKeep (List.mem_filter.mp (List.mem_eraseDups.mp hc)).2
      exact (ih keep).imp_of_mem fun hc hd => hLater _ _ (hOther _ hc) (hOther _ hd)

/-- The letters of an alphabet are in the order of their first occurrences. -/
theorem arranged_alphabetLetters (alphabet : String) :
    Arranged (letterSource alphabet) (alphabetLetters alphabet) := by
  rw [alphabetLetters_eq]
  exact arranged_eraseDups_filter _ _

/-- A symbol is tried before another one if it has fewer primes, or as many and a letter that occurs
earlier. -/
def Index.Precedes (source : List Char) (i j : Index) : Prop :=
  i.primes < j.primes ∨ i.primes = j.primes ∧ source.idxOf i.letter < source.idxOf j.letter

namespace IndexScope

/-! ## Searching in rounds -/

/-- The first symbol of a round that is not in scope. -/
def firstInRound (s : IndexScope) (primes : Nat) : Option Index :=
  (s.letters.map fun letter => (⟨letter, primes⟩ : Index)).find? (!s.live.contains ·)

/-- A search that begins with a round ends with a symbol. After the last round that can be counted
the same round comes again. -/
inductive Finds (s : IndexScope) : Nat → Index → Prop where
  | hit {primes : Nat} {i : Index} (h : s.firstInRound primes = some i) : s.Finds primes i
  | again {primes : Nat} {i : Index} (h : s.firstInRound primes = none)
      (hNext : s.Finds (min (primes + 1) 255) i) : s.Finds primes i

/-- The symbol is the first one that is not in scope. -/
structure FirstFree (source : List Char) (s : IndexScope) (i : Index) : Prop where
  letter_mem : i.letter ∈ s.letters
  not_mem : i ∉ s.live
  before : ∀ j : Index, j.letter ∈ s.letters → j.Precedes source i → j ∈ s.live

variable {source : List Char} {s : IndexScope} {i j : Index}

/-- A round in which nothing is found is in scope as a whole. -/
theorem firstInRound_eq_none {primes : Nat} (h : s.firstInRound primes = none) {letter : Char}
    (hLetter : letter ∈ s.letters) : (⟨letter, primes⟩ : Index) ∈ s.live := by
  have hAll := List.find?_eq_none.mp h ⟨letter, primes⟩ (List.mem_map.mpr ⟨letter, hLetter, rfl⟩)
  simpa using hAll

/-- What is found in a round is not in scope, and everything before it in the round is. -/
theorem firstInRound_eq_some (hOrder : Arranged source s.letters)
    {primes : Nat} (h : s.firstInRound primes = some i) :
    i.primes = primes ∧ i.letter ∈ s.letters ∧ i ∉ s.live ∧
      ∀ letter ∈ s.letters, source.idxOf letter < source.idxOf i.letter →
        (⟨letter, primes⟩ : Index) ∈ s.live := by
  obtain ⟨hFree, before, after, hSplit, hBefore⟩ := List.find?_eq_some_iff_append.mp h
  obtain ⟨cs, rest, hLetters, rfl, hRest⟩ := List.map_eq_append_iff.mp hSplit
  obtain ⟨c, ds, rfl, rfl, rfl⟩ := List.map_eq_cons_iff.mp hRest
  refine ⟨rfl, by rw [hLetters]; simp, by simpa using hFree, ?_⟩
  intro letter hLetter hLt
  have hLater := (List.pairwise_cons.mp (List.pairwise_append.mp (hLetters ▸ hOrder)).2.1).1
  rw [hLetters, List.mem_append, List.mem_cons] at hLetter
  rcases hLetter with hEarlier | rfl | hAfter
  · simpa using hBefore _ (List.mem_map.mpr ⟨letter, hEarlier, rfl⟩)
  -- the letter itself and those behind it do not come before it
  · exact absurd hLt (Nat.lt_irrefl _)
  · exact absurd hLt (Nat.lt_asymm (hLater letter hAfter))

/-- **A search that ends has found the first symbol that is not in scope.** -/
theorem Finds.firstFree (hOrder : Arranged source s.letters)
    {primes : Nat} (h : s.Finds primes i) (hPrimes : primes ≤ 255)
    (hBefore : ∀ j : Index, j.letter ∈ s.letters → j.primes < primes → j ∈ s.live) :
    s.FirstFree source i := by
  -- What carries the induction: all symbols of the rounds before are in scope.
  induction h with
  | hit h =>
    obtain ⟨rfl, hLetter, hFree, hEarlier⟩ := firstInRound_eq_some hOrder h
    refine ⟨hLetter, hFree, ?_⟩
    rintro ⟨letter, primes⟩ hj (hLt | ⟨rfl, hLt⟩)
    · exact hBefore _ hj hLt
    · exact hEarlier letter hj hLt
  | @again primes i h _ ih =>
    refine ih (Nat.min_le_right _ _) ?_
    rintro ⟨letter, more⟩ hj hLt
    have hCases : more < primes ∨ more = primes := by
      have := Nat.min_le_left (primes + 1) 255
      simp only at hLt
      omega
    rcases hCases with hLt | rfl
    · exact hBefore _ hj hLt
    · exact firstInRound_eq_none h hj

/-- There is at most one first symbol. -/
theorem FirstFree.unique (hOrder : Arranged source s.letters)
    (hi : s.FirstFree source i) (hj : s.FirstFree source j) : i = j := by
  -- Neither of two symbols that are not in scope comes before the other.
  have hNot : ¬ i.Precedes source j := fun h => hi.not_mem (hj.before i hi.letter_mem h)
  have hNot' : ¬ j.Precedes source i := fun h => hj.not_mem (hi.before j hj.letter_mem h)
  unfold Index.Precedes at hNot hNot'
  have hPrimes : i.primes = j.primes := by omega
  have hLetter : i.letter = j.letter := by
    by_contra hDiffer
    have hSymm : Std.Symm fun c d : Char => source.idxOf c ≠ source.idxOf d :=
      ⟨fun _ _ => Ne.symm⟩
    have hApart : source.idxOf i.letter ≠ source.idxOf j.letter :=
      (hOrder.imp Nat.ne_of_lt).forall hi.letter_mem hj.letter_mem hDiffer
    omega
  cases i
  cases j
  simp_all

/-- Candidates are in the order in which symbols are tried. -/
theorem pairwise_candidates {letters : List Char} (hOrder : Arranged source letters)
    (rounds : Nat) : (candidates letters rounds).Pairwise (Index.Precedes source) := by
  rw [candidates, List.pairwise_flatMap]
  constructor
  · intro primes _
    exact List.pairwise_map.mpr (hOrder.imp fun hLt => Or.inr ⟨rfl, hLt⟩)
  · refine List.pairwise_lt_range.imp fun hLt => ?_
    intro i hi j hj
    obtain ⟨c, -, rfl⟩ := List.mem_map.mp hi
    obtain ⟨d, -, rfl⟩ := List.mem_map.mp hj
    exact Or.inl hLt

/-- **The next symbol is the first one that is not in scope.** -/
theorem firstFree_next (hOrder : Arranged source s.letters)
    (hLetters : s.letters ≠ []) : s.FirstFree source s.next := by
  -- The search in the list of candidates succeeds, and the candidates before are in scope.
  obtain ⟨i, hi, hFree⟩ := s.exists_candidate hLetters
  obtain ⟨k, hFind⟩ : ∃ k,
      (candidates s.letters (s.live.length + 1)).find? (!s.live.contains ·) = some k := by
    rw [← Option.isSome_iff_exists, List.find?_isSome]
    exact ⟨i, hi, by simpa using hFree⟩
  have hNext : s.next = k := by rw [next, hFind, Option.getD_some]
  rw [hNext]
  obtain ⟨hFreeK, before, after, hSplit, hBefore⟩ := List.find?_eq_some_iff_append.mp hFind
  have hk : k ∈ candidates s.letters (s.live.length + 1) := by rw [hSplit]; simp
  obtain ⟨primes, hPrimes, hRound⟩ := List.mem_flatMap.mp hk
  obtain ⟨c, hc, rfl⟩ := List.mem_map.mp hRound
  refine ⟨hc, by simpa using hFreeK, ?_⟩
  intro j hj hPrecedes
  have hMem : j ∈ candidates s.letters (s.live.length + 1) := by
    refine mem_candidates hj (Nat.lt_of_le_of_lt ?_ (List.mem_range.mp hPrimes))
    rcases hPrecedes with hLt | ⟨hEq, -⟩
    · exact Nat.le_of_lt hLt
    · exact Nat.le_of_eq hEq
  have hSorted := pairwise_candidates hOrder (s.live.length + 1)
  rw [hSplit] at hMem hSorted
  have hLater := (List.pairwise_cons.mp (List.pairwise_append.mp hSorted).2.1).1
  rw [List.mem_append, List.mem_cons] at hMem
  rcases hMem with hEarlier | rfl | hAfter
  · simpa using hBefore j hEarlier
  -- the order is strict, so neither the symbol itself nor a later one comes before it
  · unfold Index.Precedes at hPrecedes
    omega
  · have hReverse := hLater j hAfter
    unfold Index.Precedes at hPrecedes hReverse
    omega

/-- A search from a round on ends if some symbol of that round or a later one is left. -/
theorem exists_finds_from {primes : Nat} (hi : i.letter ∈ s.letters) (hFree : i ∉ s.live)
    (hLe : primes ≤ i.primes) (hCount : i.primes ≤ 255) : ∃ k, s.Finds primes k := by
  -- The number of rounds up to that of the symbol decreases.
  induction hRounds : i.primes - primes generalizing primes with
  | zero =>
    cases hRound : s.firstInRound primes with
    | some k => exact ⟨k, .hit hRound⟩
    | none =>
      obtain rfl : primes = i.primes := by omega
      exact absurd (firstInRound_eq_none hRound hi) hFree
  | succ n ih =>
    cases hRound : s.firstInRound primes with
    | some k => exact ⟨k, .hit hRound⟩
    | none =>
      have hNext : min (primes + 1) 255 = primes + 1 := Nat.min_eq_left (by omega)
      obtain ⟨k, hk⟩ := @ih (primes + 1) (by omega) (by omega)
      exact ⟨k, .again hRound (by rwa [hNext])⟩

/-- With fewer than 256 symbols in scope for each letter, one with at most 255 primes is left. -/
theorem exists_countable (hNodup : s.letters.Nodup)
    (hLive : s.live.length < 256 * s.letters.length) :
    ∃ i ∈ candidates s.letters 256, i ∉ s.live := by
  by_contra hNone
  push Not at hNone
  have hLength := (List.subperm_of_subset (nodup_candidates hNodup 256) hNone).length_le
  rw [length_candidates] at hLength
  omega

/-- **A search ends while fewer than 256 symbols for each letter are in scope.** -/
theorem exists_finds (hNodup : s.letters.Nodup) (hLive : s.live.length < 256 * s.letters.length) :
    ∃ k, s.Finds 0 k := by
  obtain ⟨i, hi, hFree⟩ := exists_countable hNodup hLive
  obtain ⟨primes, hPrimes, hRound⟩ := List.mem_flatMap.mp hi
  obtain ⟨c, hc, rfl⟩ := List.mem_map.mp hRound
  have := List.mem_range.mp hPrimes
  exact exists_finds_from hc hFree (Nat.zero_le _) (by simp only; omega)

/-- A search ends with the next symbol, if it ends. -/
theorem Finds.eq_next (hOrder : Arranged source s.letters)
    (hLetters : s.letters ≠ []) (h : s.Finds 0 i) : i = s.next :=
  (h.firstFree hOrder (Nat.zero_le _) fun _ _ hLt => absurd hLt (Nat.not_lt_zero _)).unique hOrder
    (firstFree_next hOrder hLetters)

/-! ## Searches that may not end -/

/-- The symbol that a search ends with, and none if it never ends. -/
def search? (s : IndexScope) : Option Index :=
  (candidates s.letters 256).find? (!s.live.contains ·)

/-- Brings the symbol that a search ends with into scope. -/
def fresh? (s : IndexScope) : Option (Index × IndexScope) :=
  s.search?.map fun i => (i, { s with live := s.live ++ [i] })

/-- The rounds from one on that can be counted begin with that round. -/
private theorem find?_rounds (s : IndexScope) {primes : Nat} (h : primes ≤ 255) :
    ((List.range' primes (256 - primes)).flatMap fun primes =>
        s.letters.map fun letter => (⟨letter, primes⟩ : Index)).find? (!s.live.contains ·) =
      (s.firstInRound primes).or
        (((List.range' (primes + 1) (255 - primes)).flatMap fun primes =>
          s.letters.map fun letter => (⟨letter, primes⟩ : Index)).find?
            (!s.live.contains ·)) := by
  have hCount : 256 - primes = (255 - primes) + 1 := by omega
  rw [hCount, List.range'_succ, List.flatMap_cons, List.find?_append]
  rfl

/-- **A search ends with a symbol if that is the first one, with at most 255 primes, that is not in
scope.** If there is none the search does not end. -/
theorem finds_iff : s.Finds 0 i ↔ s.search? = some i := by
  have hFrom : ∀ primes ≤ 255, s.Finds primes i ↔
      ((List.range' primes (256 - primes)).flatMap fun primes =>
        s.letters.map fun letter => (⟨letter, primes⟩ : Index)).find? (!s.live.contains ·) =
          some i := by
    intro primes hPrimes
    constructor
    · intro h
      induction h with
      | hit hRound => rw [find?_rounds s hPrimes, hRound, Option.some_or]
      | @again primes i hRound _ ih =>
        have hRest := ih (Nat.min_le_right _ _)
        rcases Nat.lt_or_ge primes 255 with hLt | hGe
        · rw [Nat.min_eq_left hLt, show 256 - (primes + 1) = 255 - primes by omega] at hRest
          rw [find?_rounds s hPrimes, hRound, Option.none_or, hRest]
        -- the last round that can be counted comes again, and with it what it ends with
        · obtain rfl : primes = 255 := Nat.le_antisymm hPrimes hGe
          exact hRest
    · -- The number of rounds that are left decreases.
      induction hLeft : 255 - primes generalizing primes with
      | zero =>
        rw [find?_rounds s hPrimes, hLeft]
        intro h
        rw [List.range'_zero, List.flatMap_nil, List.find?_nil, Option.or_none] at h
        exact .hit h
      | succ n ih =>
        rw [find?_rounds s hPrimes]
        intro h
        cases hRound : s.firstInRound primes with
        | some k =>
          rw [hRound, Option.some_or] at h
          exact .hit (hRound.trans h)
        | none =>
          rw [hRound, Option.none_or] at h
          refine .again hRound ?_
          rw [Nat.min_eq_left (by omega)]
          apply ih (primes + 1) (by omega) (by omega)
          rwa [show 256 - (primes + 1) = 255 - primes by omega]
  have hAll := hFrom 0 (Nat.zero_le _)
  rwa [Nat.sub_zero, ← List.range_eq_range'] at hAll

/-- What is found in a number of rounds is found in more of them. -/
private theorem find?_candidates_mono {letters : List Char} {p : Index → Bool} {m n : Nat}
    (hLe : m ≤ n) (h : (candidates letters m).find? p = some i) :
    (candidates letters n).find? p = some i := by
  obtain ⟨d, rfl⟩ := Nat.exists_eq_add_of_le hLe
  rw [candidates_add, List.find?_append, h, Option.some_or]

/-- **With fewer than 256 symbols in scope for each letter, a search ends with the next symbol.** -/
theorem search?_eq_next (hNodup : s.letters.Nodup)
    (hLive : s.live.length < 256 * s.letters.length) : s.search? = some s.next := by
  have hLetters : s.letters ≠ [] := by
    intro hNil
    rw [hNil, List.length_nil, Nat.mul_zero] at hLive
    exact absurd hLive (Nat.not_lt_zero _)
  have hSome : ∀ {rounds : Nat}, (∃ i ∈ candidates s.letters rounds, i ∉ s.live) →
      ∃ k, (candidates s.letters rounds).find? (!s.live.contains ·) = some k := by
    rintro rounds ⟨i, hi, hFree⟩
    rw [← Option.isSome_iff_exists, List.find?_isSome]
    exact ⟨i, hi, by simpa using hFree⟩
  obtain ⟨j, hj⟩ := hSome (s.exists_candidate hLetters)
  obtain ⟨k, hk⟩ := hSome (exists_countable hNodup hLive)
  have hNext : s.next = j := by rw [next, hj, Option.getD_some]
  -- Of both searches one goes through more rounds than the other.
  rw [hNext, search?]
  rcases Nat.le_total (s.live.length + 1) 256 with hLe | hLe
  · exact find?_candidates_mono hLe hj
  · rw [hk, ← find?_candidates_mono hLe hk, hj]

theorem fresh?_eq (hNodup : s.letters.Nodup) (hLive : s.live.length < 256 * s.letters.length) :
    s.fresh? = some s.fresh := by
  rw [fresh?, search?_eq_next hNodup hLive]
  rfl

end IndexScope

/-! ## Scopes in use -/

/-- A mark that was set and not released yet. -/
structure OpenMark where
  /-- What the mark itself holds. -/
  place : Nat
  /-- The scope in which the mark was set. -/
  before : IndexScope

/-- A scope in use, with its open marks, the last one that was set first. -/
structure ScopeUse where
  scope : IndexScope
  marks : List OpenMark

namespace ScopeUse

/-- The scope over an alphabet before anything is done with it. -/
def start (alphabet : String) : ScopeUse := ⟨IndexScope.ofAlphabet alphabet, []⟩

/-- What can be done with a scope: bring the symbol into scope that a search ends with, set a mark,
or release an open mark, and with it all marks that were set after it. -/
inductive Step : ScopeUse → ScopeUse → Prop where
  | fresh {u : ScopeUse} {i : Index} (h : u.scope.Finds 0 i) :
    Step u ⟨{ u.scope with live := u.scope.live ++ [i] }, u.marks⟩
  | mark {u : ScopeUse} : Step u ⟨u.scope, ⟨u.scope.mark, u.scope⟩ :: u.marks⟩
  | release {u : ScopeUse} {inner outer : List OpenMark} {m : OpenMark}
      (h : u.marks = inner ++ m :: outer) : Step u ⟨u.scope.release m.place, outer⟩

/-- What every action keeps: live symbols differ, and the symbols that were live when a mark was
set are the first live ones now and whenever a later mark was set. -/
structure Sound (alphabet : String) (u : ScopeUse) : Prop where
  letters_eq : u.scope.letters = alphabetLetters alphabet
  nodup : u.scope.live.Nodup
  mark_letters : ∀ m ∈ u.marks, m.before.letters = alphabetLetters alphabet
  mark_place : ∀ m ∈ u.marks, m.place = m.before.live.length
  nested : (u.scope.live :: u.marks.map (·.before.live)).Pairwise fun inner outer => outer <+: inner

variable {alphabet : String} {u u' : ScopeUse}

theorem sound_start (alphabet : String) : (start alphabet).Sound alphabet where
  letters_eq := rfl
  nodup := List.nodup_nil
  mark_letters _ hm := absurd hm List.not_mem_nil
  mark_place _ hm := absurd hm List.not_mem_nil
  nested := List.pairwise_singleton _ _

/-- **Releasing a mark restores the scope in which it was set.** -/
theorem Sound.release (h : u.Sound alphabet) {m : OpenMark} (hm : m ∈ u.marks) :
    u.scope.release m.place = m.before := by
  have hPrefix : m.before.live <+: u.scope.live :=
    (List.pairwise_cons.mp h.nested).1 _ (List.mem_map.mpr ⟨m, hm, rfl⟩)
  rw [IndexScope.release, h.mark_place m hm, ← List.prefix_iff_eq_take.mp hPrefix, h.letters_eq,
    ← h.mark_letters m hm]

/-- **Every action keeps live symbols apart and marks nested.** -/
theorem Step.sound (hStep : Step u u') (h : u.Sound alphabet) : u'.Sound alphabet := by
  cases hStep with
  | @fresh i hFinds =>
    have hOrder := h.letters_eq ▸ arranged_alphabetLetters alphabet
    have hFree := (hFinds.firstFree hOrder (Nat.zero_le _)
      fun _ _ hLt => absurd hLt (Nat.not_lt_zero _)).not_mem
    refine ⟨h.letters_eq, ?_, h.mark_letters, h.mark_place, ?_⟩
    · rw [List.nodup_append]
      refine ⟨h.nodup, List.nodup_singleton i, ?_⟩
      rintro j hj k hk rfl
      exact hFree (List.mem_singleton.mp hk ▸ hj)
    · -- what the live symbols begin with they still begin with
      obtain ⟨hNow, hMarks⟩ := List.pairwise_cons.mp h.nested
      exact List.pairwise_cons.mpr
        ⟨fun live hLive => (hNow live hLive).trans (List.prefix_append _ _), hMarks⟩
  | mark =>
    refine ⟨h.letters_eq, h.nodup, ?_, ?_, ?_⟩
    · exact List.forall_mem_cons.mpr ⟨h.letters_eq, h.mark_letters⟩
    · exact List.forall_mem_cons.mpr ⟨rfl, h.mark_place⟩
    · refine List.pairwise_cons.mpr ⟨?_, h.nested⟩
      exact List.forall_mem_cons.mpr ⟨List.prefix_rfl, (List.pairwise_cons.mp h.nested).1⟩
  | @release inner outer m hMarks =>
    have hm : m ∈ u.marks := by rw [hMarks]; simp
    have hOuter : ∀ n ∈ outer, n ∈ u.marks := by
      intro n hn
      rw [hMarks]
      simp [hn]
    rw [h.release hm]
    -- The scope of the mark takes the place of the present one before the older marks.
    have hNested : (m.before.live :: outer.map (·.before.live)).Pairwise
        fun inner outer => outer <+: inner := by
      have hTail := (List.pairwise_cons.mp h.nested).2
      rw [hMarks, List.map_append] at hTail
      exact (List.pairwise_append.mp hTail).2.1
    have hNodup : m.before.live.Nodup := by
      have hPrefix : m.before.live <+: u.scope.live :=
        (List.pairwise_cons.mp h.nested).1 _ (List.mem_map.mpr ⟨m, hm, rfl⟩)
      exact hPrefix.sublist.nodup h.nodup
    exact ⟨h.mark_letters m hm, hNodup, fun n hn => h.mark_letters n (hOuter n hn),
      fun n hn => h.mark_place n (hOuter n hn), hNested⟩

/-- The same after any actions. -/
theorem sound_of_reaches (h : Relation.ReflTransGen Step (start alphabet) u) :
    u.Sound alphabet := by
  induction h with
  | refl => exact sound_start alphabet
  | tail _ hStep ih => exact hStep.sound ih

/-- **After any actions on the scope of an alphabet, live symbols differ; with fewer than 256 of
them for each letter a search ends, and it ends with the first symbol that is not in scope, by the
number of primes and then by where the letter first occurs; and releasing an open mark restores the
scope in which the mark was set**, so that what is handed out next is what would have been then. The
letters are the characters of the alphabet that are not blank, each counted once. -/
theorem allocation_scoped (h : Relation.ReflTransGen Step (start alphabet) u) :
    (u.scope.letters = alphabetLetters alphabet ∧ (alphabetLetters alphabet).Nodup ∧
        ∀ c, c ∈ alphabetLetters alphabet ↔ c ∈ letterSource alphabet ∧ isBlank c = false) ∧
      u.scope.live.Nodup ∧
      (u.scope.live.length < 256 * (alphabetLetters alphabet).length →
        ∃ i, (∀ k, u.scope.Finds 0 k ↔ k = i) ∧
          u.scope.fresh = (i, { u.scope with live := u.scope.live ++ [i] }) ∧
          u.scope.FirstFree (letterSource alphabet) i) ∧
      ∀ m ∈ u.marks, u.scope.release m.place = m.before ∧
        ∀ i, (u.scope.release m.place).Finds 0 i ↔ m.before.Finds 0 i := by
  have hSound := sound_of_reaches h
  have hOrder := hSound.letters_eq ▸ arranged_alphabetLetters alphabet
  have hLetters : u.scope.letters ≠ [] := hSound.letters_eq ▸ alphabetLetters_ne_nil alphabet
  refine ⟨⟨hSound.letters_eq, nodup_alphabetLetters alphabet, fun _ => mem_alphabetLetters⟩,
    hSound.nodup, ?_, ?_⟩
  · -- As long as the alphabet suffices, the search ends, and where it ends is the first free
    -- symbol.
    intro hLive
    have hNodup : u.scope.letters.Nodup := hSound.letters_eq ▸ nodup_alphabetLetters alphabet
    obtain ⟨k, hFinds⟩ := IndexScope.exists_finds hNodup (hSound.letters_eq ▸ hLive)
    obtain rfl := hFinds.eq_next hOrder hLetters
    refine ⟨u.scope.next, ?_, rfl, IndexScope.firstFree_next hOrder hLetters⟩
    intro k
    constructor
    · exact fun hk => hk.eq_next hOrder hLetters
    · rintro rfl
      exact hFinds
  · intro m hm
    rw [hSound.release hm]
    exact ⟨rfl, fun i => Iff.rfl⟩

/-- The letters of this alphabet are `b` and `a`. A mark is set behind the first of them, and then
the search goes on to the symbols with a prime. -/
theorem allocation_scoped_two_letters :
    let marked : OpenMark := ⟨1, ⟨['b', 'a'], [⟨'b', 0⟩]⟩⟩
    let used : ScopeUse := ⟨⟨['b', 'a'], [⟨'b', 0⟩, ⟨'a', 0⟩, ⟨'b', 1⟩]⟩, [marked]⟩
    Relation.ReflTransGen Step (start "b ab") used ∧
      used.scope.live.length < 256 * (alphabetLetters "b ab").length ∧
      used.scope.Finds 0 ⟨'a', 1⟩ ∧ used.scope.release 1 = ⟨['b', 'a'], [⟨'b', 0⟩]⟩ := by
  intro marked used
  have hStart : start "b ab" = ⟨⟨['b', 'a'], []⟩, []⟩ := by
    have hLetters : alphabetLetters "b ab" = ['b', 'a'] := by decide +kernel
    rw [start, IndexScope.ofAlphabet, hLetters]
  -- A symbol, a mark, and two symbols more, the last of which needs a second round.
  have hReaches : Relation.ReflTransGen Step (start "b ab") used := by
    rw [hStart]
    refine .tail (.tail (.tail (.single (.fresh (.hit ?_))) .mark) (.fresh (.hit ?_))) (.fresh
      (.again ?_ (.hit ?_)))
    all_goals rfl
  have hLive : used.scope.live.length < 256 * (alphabetLetters "b ab").length := by decide +kernel
  obtain ⟨-, -, hNext, hRelease⟩ := allocation_scoped hReaches
  obtain ⟨i, hFinds, hFresh, -⟩ := hNext hLive
  have hNext : used.scope.next = ⟨'a', 1⟩ := by decide +kernel
  have hi : i = ⟨'a', 1⟩ := (congrArg Prod.fst hFresh).symm.trans hNext
  exact ⟨hReaches, hLive, (hFinds _).mpr hi.symm, (hRelease marked (by simp [used])).1⟩

end ScopeUse

end ArrayEquations

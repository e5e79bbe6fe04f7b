import ArrayEquations.Proofs.TakenTokens
import Mathlib.Logic.Function.Iterate

/-!
# ArrayEquations — reading terms

A written term is read back, places apart, by the reader of every strength that it may be used
at. What a reader does behind the term depends on the next token: it stops unless that token goes
on with a term of the strength.

Chains of sums and of products are written with the chain so far on the left, while a reader meets
the first operand first. So a chain is not taken as a whole: after its row, the reader stands where
it would go on with the chain as its left operand.

## Main definitions

* `GoesOn` — the tokens that go on with a term of a strength.
* `readerAt` — the reader of a strength, and `ReadsAt` that it reads a term.

## Main results

* `reads_written` — a written term is read back.
-/

namespace ArrayEquations.Script.Reading

/-! ## What goes on -/

/-- A token that goes on with a term of a strength: a bracket, behind a name; an operator of the
strength or a greater one; or a naming. -/
def GoesOn (l : Strength) (t : Token) : Prop :=
  t = .mark .leftParen ∨ (∃ op : BinaryOp, l ≤ op.strength ∧ t = .mark op.mark) ∨
    (l = .naming ∧ t = .keyword .naming)

theorem GoesOn.mono {l k : Strength} {t : Token} (hle : l ≤ k) (h : GoesOn k t) : GoesOn l t := by
  rcases h with h | ⟨op, hStrength, h⟩ | ⟨rfl, h⟩
  · exact Or.inl h
  · exact Or.inr (Or.inl ⟨op, Nat.le_trans hle hStrength, h⟩)
  · refine Or.inr (Or.inr ⟨?_, h⟩)
    cases l <;> first | rfl | exact absurd hle (by decide)

theorem BinaryOp.mark_injective {op op' : BinaryOp} (h : op.mark = op'.mark) : op = op' := by
  rcases op with (_ | _ | _ | _ | _) | _ | (_ | _ | _ | _ | _ | _) <;>
    rcases op' with (_ | _ | _ | _ | _) | _ | (_ | _ | _ | _ | _ | _) <;>
      first | rfl | exact absurd h (by decide)

theorem GoesOn.of_operator {l : Strength} (op : BinaryOp) (h : l ≤ op.strength) :
    GoesOn l (.mark op.mark) := Or.inr (Or.inl ⟨op, h, rfl⟩)

theorem goesOn_mark {l : Strength} {op : BinaryOp} :
    GoesOn l (.mark op.mark) ↔ l ≤ op.strength := by
  constructor
  · rintro (hMark | ⟨op', hStrength, hMark⟩ | ⟨-, hMark⟩)
    · rcases op with (_ | _ | _ | _ | _) | _ | (_ | _ | _ | _ | _ | _) <;>
        exact absurd hMark (by decide)
    · rwa [BinaryOp.mark_injective (Token.mark.inj hMark)]
    · exact absurd hMark (by simp)
  · exact GoesOn.of_operator op

/-- The tokens that end a term wherever they stand. -/
def endsTerm : Token → Bool
  | .mark .comma | .mark .rightParen | .mark .rightBrace | .newline => true
  | _ => false

theorem not_goesOn {l : Strength} {t : Token} (h : endsTerm t) : ¬ GoesOn l t := by
  rintro (rfl | ⟨op, -, rfl⟩ | ⟨-, rfl⟩)
  · exact absurd h (by decide)
  · rcases op with (_ | _ | _ | _ | _) | _ | (_ | _ | _ | _ | _ | _) <;>
      exact absurd h (by decide)
  · exact absurd h (by decide)

/-- The function picks out the operators of a strength. -/
def PicksOperators (op? : Token → Option BinaryOp) (k : Strength) : Prop :=
  ∀ t op, op? t = some op ↔ op.strength = k ∧ t = .mark op.mark

theorem picks_productOp? : PicksOperators productOp? .product := by
  intro t op
  constructor
  · intro h
    unfold productOp? at h
    split at h <;> cases h <;> exact ⟨rfl, rfl⟩
  · rintro ⟨hStrength, rfl⟩
    rcases op with (_ | _ | _ | _ | _) | _ | c <;>
      first | rfl | exact absurd hStrength (by simp [BinaryOp.strength])

theorem picks_sumOp? : PicksOperators sumOp? .sum := by
  intro t op
  constructor
  · intro h
    unfold sumOp? at h
    split at h <;> cases h <;> exact ⟨rfl, rfl⟩
  · rintro ⟨hStrength, rfl⟩
    rcases op with (_ | _ | _ | _ | _) | _ | c <;>
      first | rfl | exact absurd hStrength (by simp [BinaryOp.strength])

theorem picks_comparisonOp? : PicksOperators comparisonOp? .comparison := by
  intro t op
  constructor
  · intro h
    unfold comparisonOp? at h
    split at h <;> cases h <;> exact ⟨rfl, rfl⟩
  · rintro ⟨hStrength, rfl⟩
    rcases op with (_ | _ | _ | _ | _) | _ | (_ | _ | _ | _ | _ | _) <;>
      first | rfl | exact absurd hStrength (by decide)

/-- A token that does not go on is no operator of the strength. -/
theorem PicksOperators.eq_none {op? : Token → Option BinaryOp} {k l : Strength}
    (h : PicksOperators op? k) (hle : l ≤ k) {t : Option Token} (ht : ∀ u ∈ t, ¬ GoesOn l u) :
    t.bind op? = none := by
  cases t with
  | none => rfl
  | some u =>
    cases hOp : op? u with
    | none => exact hOp
    | some op =>
      obtain ⟨rfl, rfl⟩ := (h u op).mp hOp
      exact absurd (goesOn_mark.mpr hle) (ht _ rfl)

/-! ## Readers -/

/-- The reader of a strength, with the reader of the terms inside brackets. -/
def readerAt (inner : Reading Term) : Strength → Reading Term
  | .atom => atom inner
  | .unary => unary (atom inner)
  | .product => chain productOp? (unary (atom inner))
  | .sum => chain sumOp? (chain productOp? (unary (atom inner)))
  | .comparison => comparison (chain sumOp? (chain productOp? (unary (atom inner))))
  | .naming => naming (comparison (chain sumOp? (chain productOp? (unary (atom inner)))))

/-- The reader takes the row and yields the term, where nothing goes on with it. -/
def Yields (m : Reading Term) (l : Strength) (e : Term) (ts : List Token) : Prop :=
  Takes m ts (GoesOn l) fun e' => e'.bare = e.bare

/-- Behind the row a chain of operands of a strength goes on with the term on its left. -/
def Chains (op? : Token → Option BinaryOp) (operand : Reading Term) (k : Strength) (e : Term)
    (ts : List Token) : Prop :=
  ∀ (us : List Token) (q : Token → Prop) (Q : Term → Prop), Stops (GoesOn k) us q →
    (∀ start fuel (e' : Term), e'.bare = e.bare → us.length ≤ fuel →
      Takes (chainFrom op? operand start fuel e') us q Q) →
    Takes (chain op? operand) (ts ++ us) q Q

/-- The reader of a strength reads the row as the term. -/
def ReadsAt (inner : Reading Term) (e : Term) (ts : List Token) : Strength → Prop
  | .atom => BeginsApart (.mark .minus) ts ∧ Yields (readerAt inner .atom) .atom e ts
  | .unary => ts ≠ [] ∧
    ∀ fuel, ts.length ≤ fuel → Yields (unaryWithin (readerAt inner .atom) fuel) .unary e ts
  | .product => Chains productOp? (readerAt inner .unary) .unary e ts
  | .sum => Chains sumOp? (readerAt inner .product) .product e ts
  | .comparison => Yields (readerAt inner .comparison) .comparison e ts
  | .naming => Yields (readerAt inner .naming) .naming e ts

variable {inner operand : Reading Term} {op? : Token → Option BinaryOp} {e lhs rhs : Term}
  {ts us : List Token} {l k : Strength}

/-! ## Chains -/

/-- An operand alone is a chain. -/
theorem chains_operand (h : Yields operand k e ts) : Chains op? operand k e ts := by
  intro us q Q hStops hChain
  unfold chain
  refine Takes.place fun start => ?_
  refine h.bind (fun e' hSame => ?_) hStops
  exact Takes.remaining fun n hn => hChain start n e' hSame hn

/-- A chain goes on with an operator and an operand. -/
theorem Chains.more {op : BinaryOp} {span : Span} (hPicks : PicksOperators op? op.strength)
    (hLeft : Chains op? operand k lhs ts) (hRight : Yields operand k rhs us)
    (hWeaker : ¬ k ≤ op.strength) :
    Chains op? operand k (.binary span op lhs rhs) (ts ++ .mark op.mark :: us) := by
  intro vs q Q hStops hChain
  rw [List.append_assoc, List.cons_append]
  refine hLeft _ q Q (stops_cons (mt goesOn_mark.mp hWeaker)) fun start fuel lhs' hSame hFuel => ?_
  rw [List.length_cons, List.length_append] at hFuel
  obtain ⟨fuel, rfl⟩ := Nat.exists_eq_add_one.mpr (show 0 < fuel by omega)
  unfold chainFrom
  refine Takes.peek ?_
  rw [Option.bind_some, (hPicks _ op).mpr ⟨rfl, rfl⟩]
  refine takes_advance.step fun _ _ => ?_
  refine hRight.bind (fun rhs' hSame' => ?_) hStops
  refine Takes.spanFrom start fun span' => ?_
  exact hChain start fuel _ (by simp [Term.bare, hSame, hSame']) (by omega)

/-- A chain ends before a token that is none of its operators. -/
theorem Chains.yields (hPicks : PicksOperators op? l) (hle : l ≤ k)
    (h : Chains op? operand k e ts) : Yields (chain op? operand) l e ts := by
  have hTaken := h [] (GoesOn l) (fun e' => e'.bare = e.bare)
    (stops_nil fun _ => GoesOn.mono hle) fun start fuel e' hSame _ => by
      cases fuel with
      | zero => exact takes_pure hSame
      | succ fuel =>
        unfold chainFrom
        refine Takes.peek_end fun t ht => ?_
        rw [hPicks.eq_none (Nat.le_refl _) ht]
        exact takes_pure hSame
  rwa [List.append_nil] at hTaken

/-! ## Weaker readers -/

/-- What reads a row as a term takes it. -/
theorem ReadsAt.yields (h : ReadsAt inner e ts l) : Yields (readerAt inner l) l e ts := by
  cases l with
  | atom => exact h.2
  | unary => exact Takes.remaining fun n hn => h.2 n hn
  | product => exact Chains.yields picks_productOp? (by decide) h
  | sum => exact Chains.yields picks_sumOp? (by decide) h
  | comparison => exact h
  | naming => exact h

/-- The next looser strength. -/
def looser : Strength → Strength
  | .atom => .unary
  | .unary => .product
  | .product => .sum
  | .sum => .comparison
  | .comparison | .naming => .naming

/-- A reader that finds none of its operators yields what the next stronger one does. -/
theorem ReadsAt.looser (h : ReadsAt inner e ts k) : ReadsAt inner e ts (looser k) := by
  have hYields := h.yields
  -- The reader of each level first calls that of the level below, and then looks for an operator of
  -- its own.
  cases k with
  | atom =>
    refine ⟨h.1.1, fun fuel hFuel => ?_⟩
    have hSome := List.length_pos_of_ne_nil h.1.1
    obtain ⟨fuel, rfl⟩ := Nat.exists_eq_add_one.mpr (Nat.lt_of_lt_of_le hSome hFuel)
    rw [← List.append_nil ts]
    unfold unaryWithin
    refine Takes.place fun start => Takes.decline (h.1.stops []) ?_
    refine hYields.bind (fun e' hSame => ?_) (stops_nil fun _ => GoesOn.mono (by decide))
    refine Takes.decline (stops_nil ?_) (takes_pure hSame)
    rintro _ rfl
    exact GoesOn.of_operator (.arith .pow) (by decide)
  | unary => exact chains_operand hYields
  | product => exact chains_operand hYields
  | sum =>
    have hTaken : Yields (readerAt inner .comparison) .comparison e (ts ++ []) := by
      unfold Yields readerAt comparison
      refine Takes.place fun start => ?_
      refine hYields.bind (fun e' hSame => ?_) (stops_nil fun _ => GoesOn.mono (by decide))
      refine Takes.peek_end fun t ht => ?_
      rw [picks_comparisonOp?.eq_none (Nat.le_refl _) ht]
      exact takes_pure hSame
    rwa [List.append_nil] at hTaken
  | comparison =>
    have hTaken : Yields (readerAt inner .naming) .naming e (ts ++ []) := by
      unfold Yields readerAt naming
      refine Takes.place fun start => ?_
      refine hYields.bind (fun e' hSame => ?_) (stops_nil fun _ => GoesOn.mono (by decide))
      refine Takes.decline (stops_nil ?_) (takes_pure hSame)
      rintro _ rfl
      exact Or.inr (Or.inr ⟨rfl, rfl⟩)
    rwa [List.append_nil] at hTaken
  | naming => exact h

/-- What is read at a strength is read at every looser one. -/
theorem ReadsAt.weaken (h : ReadsAt inner e ts k) (hle : l ≤ k) : ReadsAt inner e ts l := by
  obtain ⟨n, hn⟩ : ∃ n, Reading.looser^[n] k = l := by
    refine ⟨k.rank - l.rank, ?_⟩
    cases k <;> cases l <;> first | rfl | exact absurd hle (by decide)
  rw [← hn]
  clear hn
  induction n with
  | zero => exact h
  | succ n ih =>
    rw [Function.iterate_succ_apply']
    exact ih.looser

/-! ## Atoms -/

theorem readsAt_number {t : Token} {x : Float} {span : Span} (h : t.number? = some x) :
    ReadsAt inner (.number span x) [t] .atom := by
  cases t with
  | int n =>
    obtain rfl := Option.some.inj h
    refine ⟨⟨by simp, by simp⟩, Takes.place fun start => Takes.peek ?_⟩
    exact takes_advance.last fun _ _ =>
      Takes.spanFrom start fun span => takes_pure (by simp [Term.bare])
  | decimal y =>
    obtain rfl := Option.some.inj h
    refine ⟨⟨by simp, by simp⟩, Takes.place fun start => Takes.peek ?_⟩
    exact takes_advance.last fun _ _ =>
      Takes.spanFrom start fun span => takes_pure (by simp [Term.bare])
  | _ => exact absurd h (by simp [Token.number?])

theorem readsAt_dims {ns : List Nat} {span : Span}
    (h : Enclosed .rightBracket (ns.map fun n => [.int n]) ts) :
    ReadsAt inner (.dims span ns) (.mark .leftBracket :: ts) .atom := by
  refine ⟨⟨by simp, by simp⟩, Takes.place fun start => Takes.peek ?_⟩
  rw [← List.append_nil ts, ← List.cons_append]
  refine (takes_dims h).next fun ns' hSame => ?_
  exact Takes.spanFrom start fun span' => takes_pure (by simp [Term.bare, hSame])

theorem readsAt_var (name : Identifier) :
    ReadsAt inner (.var name) [.identifier name.name] .atom := by
  refine ⟨⟨by simp, by simp⟩, Takes.place fun start => Takes.peek ?_⟩
  refine (takes_identifier name.name).last fun name' hSame => ?_
  refine Takes.decline (stops_nil fun _ => Or.inl) (takes_pure ?_)
  simp [Term.bare, Identifier.bare, hSame]

/-- An opening bracket goes on with a name to a call of it. -/
theorem readsAt_call {callee : Identifier} {arguments : List Term} {rows : List (List Token)}
    {span : Span}
    (h : List.Forall₂ (fun a row => BeginsApart (.mark .rightParen) row ∧
      Yields inner .naming a row) arguments rows)
    (hRow : Enclosed .rightParen rows ts) :
    ReadsAt inner (.call span callee arguments)
      (.identifier callee.name :: .mark .leftParen :: ts) .atom := by
  refine ⟨⟨by simp, by simp⟩, Takes.place fun start => Takes.peek ?_⟩
  refine (takes_identifier callee.name).next fun callee' hCallee => Takes.accept ?_
  rw [← List.append_nil ts]
  have hArguments := takes_closed hRow h (not_goesOn rfl) (not_goesOn rfl) (by decide)
  refine hArguments.next fun arguments' hSame => ?_
  refine Takes.spanFrom start fun span' => takes_pure ?_
  simp [Term.bare, Identifier.bare, hCallee, map_eq_of_forall₂ hSame]

/-- A term in brackets is an atom. -/
theorem readsAt_brackets (h : Yields inner .naming e ts) :
    ReadsAt inner e (.mark .leftParen :: (ts ++ [.mark .rightParen])) .atom := by
  refine ⟨⟨by simp, by simp⟩, Takes.place fun start => Takes.peek ?_⟩
  refine takes_advance.step fun _ _ => ?_
  refine h.bind (fun e' hSame => ?_) (stops_cons (not_goesOn rfl))
  exact (takes_expectMark .rightParen).last fun _ _ => takes_pure hSame

/-! ## Operations and namings -/

theorem ReadsAt.neg {span : Span} (h : ReadsAt inner e ts .unary) :
    ReadsAt inner (.neg span e) (.mark .minus :: ts) .unary := by
  refine ⟨by simp, fun fuel hFuel => ?_⟩
  rw [List.length_cons] at hFuel
  obtain ⟨fuel, rfl⟩ := Nat.exists_eq_add_one.mpr (show 0 < fuel by omega)
  unfold unaryWithin
  refine Takes.place fun start => Takes.accept ?_
  rw [← List.append_nil ts]
  refine (h.2 fuel (by omega)).bind (fun e' hSame => ?_) (stops_nil fun _ => id)
  exact Takes.spanFrom start fun span' => takes_pure (by simp [Term.bare, hSame])

/-- An operation is read where it belongs, from operands that are read where they belong. -/
theorem ReadsAt.binary {op : BinaryOp} {span : Span} (hLeft : ReadsAt inner lhs ts op.leftStrength)
    (hRight : ReadsAt inner rhs us op.rightStrength) :
    ReadsAt inner (.binary span op lhs rhs) (ts ++ .mark op.mark :: us) op.strength := by
  rcases op with (_ | _ | _ | _ | _) | _ | c
  · exact Chains.more picks_sumOp? hLeft hRight.yields (by decide)
  · exact Chains.more picks_sumOp? hLeft hRight.yields (by decide)
  · exact Chains.more picks_productOp? hLeft hRight.yields (by decide)
  · exact Chains.more picks_productOp? hLeft hRight.yields (by decide)
  · -- A power: the exponent is again a negation or a power.
    refine ⟨by simp, fun fuel hFuel => ?_⟩
    rw [List.length_append, List.length_cons] at hFuel
    obtain ⟨fuel, rfl⟩ := Nat.exists_eq_add_one.mpr (show 0 < fuel by omega)
    unfold unaryWithin
    refine Takes.place fun start => Takes.decline (hLeft.1.stops _) ?_
    refine hLeft.2.bind (fun lhs' hSame => ?_) (stops_cons (mt goesOn_mark.mp (by decide)))
    refine Takes.accept ?_
    rw [← List.append_nil us]
    refine (hRight.2 fuel (by omega)).bind (fun rhs' hSame' => ?_) (stops_nil fun _ => id)
    exact Takes.spanFrom start fun span' => takes_pure (by simp [Term.bare, hSame, hSame'])
  · exact Chains.more picks_productOp? hLeft hRight.yields (by decide)
  · -- A comparison: there is none on its right, so that the next token may be one.
    refine Takes.place fun start => ?_
    refine hLeft.yields.bind (fun lhs' hSame => ?_) (stops_cons (mt goesOn_mark.mp ?_))
    · refine Takes.peek ?_
      rw [Option.bind_some, (picks_comparisonOp? _ (.compare c)).mpr ⟨rfl, rfl⟩]
      refine takes_advance.step fun _ _ => ?_
      rw [← List.append_nil us]
      refine hRight.yields.bind (fun rhs' hSame' => ?_) (stops_nil fun _ => GoesOn.mono
        (show Strength.comparison ≤ Strength.sum by decide))
      exact Takes.spanFrom start fun span' => takes_pure (by simp [Term.bare, hSame, hSame'])
    · exact show ¬ Strength.sum ≤ Strength.comparison by decide

theorem takes_dependencies {dependsOn : Option (List Identifier)}
    (h : DependenciesWritten dependsOn ts) :
    Takes dependencies ts (· = .mark .leftParen) fun dependsOn' =>
      dependsOn'.map (List.map Identifier.bare) = dependsOn.map (List.map Identifier.bare) := by
  unfold dependencies
  cases h with
  | absent => exact Takes.decline (stops_nil fun _ => id) (takes_pure rfl)
  | @names names ts h =>
    refine Takes.accept ?_
    have hNames : List.Forall₂ (fun n row => row ≠ [] ∧ Takes identifier row Never
        fun n' => Identifier.bare n' = Identifier.bare n) names
        (names.map fun n => [.identifier n.name]) :=
      List.forall₂_map_right_iff.mpr (List.forall₂_same.mpr fun n _ =>
        ⟨by simp, (takes_identifier n.name).imp (fun _ hName => by simp [Identifier.bare, hName])
          fun _ => id⟩)
    have hItems := takes_items h hNames id
    refine hItems.bind (fun names' hSame => ?_) (stops_cons (by simp [Never]))
    refine (takes_expectMark .rightParen).last fun _ _ => takes_pure ?_
    rw [Option.map_some, Option.map_some, map_eq_of_forall₂ hSame]

theorem ReadsAt.named {span : Span} {name : Identifier} {dependsOn : Option (List Identifier)}
    (h : ReadsAt inner e ts .comparison) (hDependsOn : DependenciesWritten dependsOn us) :
    ReadsAt inner (.named span e name dependsOn)
      (ts ++ .keyword .naming :: .identifier name.name :: us) .naming := by
  refine Takes.place fun start => ?_
  refine Takes.bind h (fun e' hSame => ?_) (stops_cons ?_)
  · refine Takes.accept ?_
    refine (takes_identifier name.name).next fun name' hName => ?_
    rw [← List.append_nil us]
    refine (takes_dependencies hDependsOn).bind (fun dependsOn' hDependsOn' => ?_)
      (stops_nil fun _ => Or.inl)
    refine Takes.spanFrom start fun span' => takes_pure ?_
    simp [Term.bare, Identifier.bare, hSame, hName, hDependsOn']
  · rintro (hMark | ⟨op, -, hMark⟩ | ⟨hNaming, -⟩)
    · exact absurd hMark (by simp)
    · exact absurd hMark (by simp)
    · exact absurd hNaming (by decide)

/-! ## Terms -/

/-- The tokens that a term begins with. -/
def opensTerm : Token → Bool
  | .int _ | .decimal _ | .identifier _ => true
  | .mark .leftBracket | .mark .minus | .mark .leftParen => true
  | _ => false

theorem opensTerm_of_written {spare : Prop} (h : e.Written spare l ts) :
    ∃ t us, ts = t :: us ∧ opensTerm t := by
  induction h with
  | @number _ _ _ t h =>
    refine ⟨t, [], rfl, ?_⟩
    cases t <;> first | rfl | exact absurd h (by simp [Token.number?])
  | binary _ _ _ ihLeft _ =>
    obtain ⟨t, us, rfl, ht⟩ := ihLeft
    exact ⟨t, _, rfl, ht⟩
  | named _ _ _ ih =>
    obtain ⟨t, us, rfl, ht⟩ := ih
    exact ⟨t, _, rfl, ht⟩
  | _ => exact ⟨_, _, rfl, rfl⟩

/-- A term does not begin with a token that opens none. -/
theorem beginsApart_of_written {spare : Prop} {t : Token} (h : e.Written spare l ts)
    (ht : opensTerm t = false) : BeginsApart t ts := by
  obtain ⟨u, us, rfl, hu⟩ := opensTerm_of_written h
  refine ⟨List.cons_ne_nil u us, ?_⟩
  rintro u' hu' rfl
  obtain rfl := Option.some.inj hu'
  exact absurd (hu.symm.trans ht) (by decide)

/-- **A written term is read back**, by the reader of every strength that it may be used at. -/
theorem reads_written {spare : Prop} (h : e.Written spare l ts) :
    ∀ fuel, ts.length ≤ fuel + 1 → ReadsAt (termWithin fuel) e ts l := by
  induction h with
  | @number l _ _ _ h => exact fun fuel _ => (readsAt_number h).weaken (by cases l <;> decide)
  | @dims l _ _ _ h => exact fun fuel _ => (readsAt_dims h).weaken (by cases l <;> decide)
  | @var l name => exact fun fuel _ => (readsAt_var name).weaken (by cases l <;> decide)
  | @call l span callee arguments rows ts hLength h hRow ih =>
    intro fuel hFuel
    rw [List.length_cons, List.length_cons] at hFuel
    obtain ⟨fuel, rfl⟩ := Nat.exists_eq_add_one.mpr (show 0 < fuel by omega)
    -- An argument has fewer tokens than the call, so that less fuel will do for it.
    have hPairs : ∀ {a row}, (a, row) ∈ arguments.zip rows →
        BeginsApart (.mark .rightParen) row ∧ Yields (termWithin (fuel + 1)) .naming a row := by
      intro a row hMem
      have hLt := hRow.length_lt row (List.of_mem_zip hMem).2
      exact ⟨beginsApart_of_written (h (a, row) hMem) rfl,
        (ih (a, row) hMem fuel (by simp only; omega)).yields⟩
    exact (readsAt_call (List.forall₂_iff_zip.mpr ⟨hLength, hPairs⟩) hRow).weaken
      (by cases l <;> decide)
  | neg hStrength _ ih =>
    intro fuel hFuel
    rw [List.length_cons] at hFuel
    exact (ih fuel (by omega)).neg.weaken hStrength
  | binary hStrength _ _ ihLeft ihRight =>
    intro fuel hFuel
    rw [List.length_append, List.length_cons] at hFuel
    exact ((ihLeft fuel (by omega)).binary (ihRight fuel (by omega))).weaken hStrength
  | named hStrength _ hDependsOn ih =>
    intro fuel hFuel
    rw [List.length_append] at hFuel
    exact ((ih fuel (by omega)).named hDependsOn).weaken hStrength
  | @brackets l _ _ _ _ ih =>
    intro fuel hFuel
    rw [List.length_cons, List.length_append, List.length_singleton] at hFuel
    obtain ⟨fuel, rfl⟩ := Nat.exists_eq_add_one.mpr (show 0 < fuel by omega)
    exact (readsAt_brackets (ih fuel (by omega)).yields).weaken (by cases l <;> decide)

/-- A written term is taken from the front. -/
theorem takes_term {spare : Prop} (h : e.Written spare .naming ts) : Yields term .naming e ts := by
  unfold term
  refine Takes.remaining fun n hn => ?_
  obtain ⟨t, us, rfl, -⟩ := opensTerm_of_written h
  obtain ⟨n, rfl⟩ := Nat.exists_eq_add_one.mpr (show 0 < n by simp at hn; omega)
  exact (reads_written h n hn).yields

end ArrayEquations.Script.Reading

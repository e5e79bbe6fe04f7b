import ArrayEquations.Proofs.ReverseSoundness

/-!
# ArrayEquations — what a cotangent adds up

A cotangent adds up contributions from the left, in the order in which they arrive: first the
seeds of the outputs, then what the operations give, from the last operation to the first. An
operation gives one contribution for each of its slots whose operand depends on a chosen
argument; a comparison gives none, and neither does a value that has no cotangent.

Operands come before the operations that use them. So when an operation is reached on the way
back, all operations that use its result have given theirs, and no later step changes its
cotangent any more.

## Main definitions

* `Graph.AddsUp` — a value adds up a row of others.
* `contributionsTo` — the contributions to one value among those to several.
* `Reverse.receivers`, `Reverse.HandsOn` — who is given a contribution, and what a value gives.
* `Reverse.Tallies` — the cotangents so far add up the contributions so far.

## Main results

* `Reverse.yields_carryBack_tallies` — one step back adds what the value gives.
* `Trace.cotangents_add_up` — what the outputs of a reverse differentiation are.
-/

namespace ArrayEquations

/-- A value adds up a row of others, from the left. One value alone is its own sum. -/
inductive Graph.AddsUp (g : Graph) : List ValueId → ValueId → Prop
  | single (c : ValueId) : AddsUp g [c] c
  | more {cs : List ValueId} {before c sum : ValueId} {s : Shape} (h : AddsUp g cs before)
      (hSum : g.get? sum = some ⟨.op .accumulate [before, c], s⟩) : AddsUp g (cs ++ [c]) sum

theorem Graph.AddsUp.extend {g g' : Graph} {cs : List ValueId} {v : ValueId} (h : g.AddsUp cs v)
    (hExtends : g.Extends g') : g'.AddsUp cs v := by
  induction h with
  | single c => exact .single c
  | more _ hSum ih => exact .more ih (hExtends.get?_of_some hSum)

theorem Graph.AddsUp.ne_nil {g : Graph} {cs : List ValueId} {v : ValueId} (h : g.AddsUp cs v) :
    cs ≠ [] := by
  cases h <;> simp

/-! ## Contributions to one value -/

/-- The contributions to one value among those to several, in their order. -/
def contributionsTo (v : ValueId) (given : List (ValueId × ValueId)) : List ValueId :=
  (given.filter (·.1 == v)).map (·.2)

section Contributions

variable {v w c : ValueId} {given later : List (ValueId × ValueId)}

theorem contributionsTo_append :
    contributionsTo v (given ++ later) = contributionsTo v given ++ contributionsTo v later := by
  simp [contributionsTo]

theorem contributionsTo_self : contributionsTo v [(v, c)] = [c] := by
  simp [contributionsTo]

theorem contributionsTo_of_ne (h : w ≠ v) : contributionsTo v [(w, c)] = [] := by
  simp [contributionsTo, h]

theorem contributionsTo_eq_nil (h : ∀ y ∈ given, y.1 ≠ v) : contributionsTo v given = [] := by
  simpa [contributionsTo] using h

/-- Contributions to other values do not matter. -/
theorem contributionsTo_filter {p : ValueId → Bool} (hv : p v = true) :
    contributionsTo v (given.filter fun y => p y.1) = contributionsTo v given := by
  rw [contributionsTo, List.filter_filter, contributionsTo]
  congr 1
  apply List.filter_congr
  intro y _
  by_cases hy : y.1 = v <;> simp [hy, hv]

theorem length_contributionsTo :
    (contributionsTo v given).length = (given.map (·.1)).count v := by
  rw [contributionsTo, List.length_map, List.count, List.countP_map, List.countP_eq_length_filter]
  rfl

end Contributions

namespace Reverse

open Recording Differentiating

/-- The operands that an operation gives a contribution each: those that depend on a chosen
argument, in the order of their slots. An indicator gives none. -/
def receivers (x : Reverse) : Operation → List ValueId → List ValueId
  | .indicator _, _ => []
  | _, operands => operands.filter x.depends.contains

/-- What a value gives its operands: nothing, if it has no cotangent or is no operation, and
otherwise one contribution for each of them that receives one, as the rule of the operation
records them for the cotangent. -/
def HandsOn (x : Reverse) (cotangents : Derivatives) (g : Graph) (v : ValueId)
    (row : List (ValueId × ValueId)) : Prop :=
  match cotangents v, x.graph.op? v with
  | some ct, some (op, operands) =>
    row.map (·.1) = x.receivers op operands ∧
      ∃ r r' : Recorder, x.graph.Extends r.graph ∧ r'.graph.Extends g ∧
        (x.contributions op operands v ct).run r = (.ok row, r')
  | _, _ => row = []

/-- How many contributions a value gives another one: as many as its operation has slots for it,
unless there is no cotangent, or the operation is an indicator. -/
def giftCount (x : Reverse) (cotangents : Derivatives) (target v : ValueId) : Nat :=
  match cotangents v, x.graph.op? v with
  | some _, some (.indicator _, _) => 0
  | some _, some (_, operands) => operands.count target
  | _, _ => 0

/-- The cotangents so far add up the contributions so far, which all go to values that depend on a
chosen argument. -/
structure Tallies (x : Reverse) (given : List (ValueId × ValueId)) (d : Derivatives) (g : Graph) :
    Prop where
  depends : ∀ y ∈ given, x.depends.contains y.1 = true
  of_none : ∀ v, d v = none → contributionsTo v given = []
  of_some : ∀ v ct, d v = some ct →
    g.AddsUp (contributionsTo v given) ct ∧ ct < g.size ∧ g.shape ct = x.graph.shape v

variable {x : Reverse} {r r₀ : Recorder} {d d' : Derivatives} {g g' : Graph} {v c : ValueId}
  {given row : List (ValueId × ValueId)} {op : Operation} {operands : List ValueId}

/-! ## Sums -/

theorem Tallies.extend (h : x.Tallies given d g) (hExtends : g.Extends g') :
    x.Tallies given d g' := by
  refine ⟨h.depends, h.of_none, ?_⟩
  intro v ct hd
  obtain ⟨hSum, hLt, hShape⟩ := h.of_some v ct hd
  refine ⟨hSum.extend hExtends, Nat.lt_of_lt_of_le hLt hExtends.size_le, ?_⟩
  rw [hExtends.shape_eq hLt, hShape]

theorem tallies_none (x : Reverse) (g : Graph) : x.Tallies [] Derivatives.none g :=
  ⟨by simp, fun _ _ => rfl, fun _ _ h => absurd h (by simp [Derivatives.none])⟩

/-- A value that does not depend on a chosen argument is given nothing. -/
theorem Tallies.eq_none (h : x.Tallies given d g) (hv : x.depends.contains v = false) :
    d v = none := by
  cases hd : d v with
  | none => rfl
  | some ct =>
    obtain ⟨hSum, -, -⟩ := h.of_some v ct hd
    refine absurd (contributionsTo_eq_nil fun y hy hEq => ?_) hSum.ne_nil
    rw [← hEq, h.depends y hy] at hv
    exact absurd hv (by simp)

/-- One more contribution, with the sum that it makes. -/
theorem Tallies.set (h : x.Tallies given d g) (hv : x.depends.contains v = true) {sum : ValueId}
    (hSum : g.AddsUp (contributionsTo v given ++ [c]) sum) (hLt : sum < g.size)
    (hShape : g.shape sum = x.graph.shape v) : x.Tallies (given ++ [(v, c)]) (d.set v sum) g := by
  unfold Derivatives.set
  refine ⟨?_, ?_, ?_⟩
  · intro y hy
    rcases List.mem_append.mp hy with hy | hy
    · exact h.depends y hy
    · obtain rfl := List.mem_singleton.mp hy
      exact hv
  · -- Other values have as few contributions as before.
    intro w hd
    by_cases hEq : w = v
    · rw [if_pos hEq] at hd
      exact absurd hd (by simp)
    · rw [if_neg hEq] at hd
      rw [contributionsTo_append, h.of_none w hd, contributionsTo_of_ne (Ne.symm hEq)]
      rfl
  · -- The value itself has one more, and others have what they had.
    intro w ct hd
    by_cases hEq : w = v
    · rw [if_pos hEq] at hd
      obtain rfl := Option.some.inj hd
      rw [hEq, contributionsTo_append, contributionsTo_self]
      exact ⟨hSum, hLt, hShape⟩
    · rw [if_neg hEq] at hd
      rw [contributionsTo_append, contributionsTo_of_ne (Ne.symm hEq), List.append_nil]
      exact h.of_some w ct hd

/-- Two arrays of one shape are added as they are. -/
theorem ensures_elementwise_same {op : Operation} {a b : ValueId} {s : Shape}
    (ha : r.graph.shape a = s) (hb : r.graph.shape b = s) (haLt : a < r.graph.size)
    (hbLt : b < r.graph.size) (hFits : op.Fits [s, s] s) :
    Ensures (elementwise op a b) r fun v r' =>
      r.Extends r' ∧ v = r.graph.size ∧ r'.graph.get? v = some ⟨.op op [a, b], s⟩ := by
  have hStretch : ∀ w, stretch w s s = pure w := by
    intro w
    simp only [stretch]
    rfl
  unfold elementwise
  apply ensures_shapeOf_bind
  apply ensures_shapeOf_bind
  rw [ha, hb, Shape.broadcast_of_below_left (Shape.Below.refl s)]
  simp only [hStretch, pure_bind]
  apply ensures_pushShaped
  · simp [haLt, hbLt]
  · simpa [ha, hb] using hFits

/-- **One contribution more** makes one sum more, unless it is the first. The cotangents of other
values stay as they are. -/
theorem ensures_accumulate_tallies (h : x.Tallies given d r.graph)
    (hv : x.depends.contains v = true) (hLt : c < r.graph.size)
    (hShape : r.graph.shape c = x.graph.shape v) :
    Ensures (accumulate d v c) r fun d' r' => r.Extends r' ∧
      x.Tallies (given ++ [(v, c)]) d' r'.graph ∧ ∀ w, w ≠ v → d' w = d w := by
  have hOther : ∀ sum w, w ≠ v → d.set v sum w = d w := fun _ _ hw => if_neg hw
  unfold accumulate
  cases hd : d v with
  -- The first contribution is the cotangent itself, and no sum is recorded.
  | none =>
    refine ⟨Recorder.Extends.refl r, h.set hv ?_ hLt hShape, hOther c⟩
    rw [h.of_none v hd]
    exact .single c
  | some before =>
    obtain ⟨hSum, hBeforeLt, hBefore⟩ := h.of_some v before hd
    apply Ensures.bind (ensures_elementwise_same hBefore hShape hBeforeLt hLt
      (.accumulate (Shape.broadcast_of_below_left (Shape.Below.refl _))))
    rintro sum r' ⟨hExtends, -, hGet⟩
    refine ⟨hExtends, (h.extend hExtends.graph).set hv ?_ (Graph.lt_size_of_get? hGet)
      (Graph.shape_of_get? hGet), hOther sum⟩
    exact .more (hSum.extend hExtends.graph) hGet

/-- Several contributions are added one after the other. -/
theorem ensures_accumulateAll_tallies (h : x.Tallies given d r.graph)
    (hRow : ∀ y ∈ row, x.depends.contains y.1 = true ∧ y.2 < r.graph.size ∧
      r.graph.shape y.2 = x.graph.shape y.1) :
    Ensures (accumulateAll d row) r fun d' r' => r.Extends r' ∧
      x.Tallies (given ++ row) d' r'.graph ∧ ∀ w ∉ row.map (·.1), d' w = d w := by
  unfold accumulateAll
  induction row generalizing given d r with
  | nil =>
    rw [List.append_nil]
    exact ⟨Recorder.Extends.refl r, h, fun _ _ => rfl⟩
  | cons y row ih =>
    obtain ⟨⟨hv, hLt, hShape⟩, hRest⟩ := List.forall_mem_cons.mp hRow
    rw [List.foldlM_cons]
    apply Ensures.bind (ensures_accumulate_tallies h hv hLt hShape)
    rintro d₁ r₁ ⟨hExtends₁, h₁, hSame₁⟩
    -- The sum that was just recorded does not touch the contributions that are left.
    have hRest₁ : ∀ z ∈ row, x.depends.contains z.1 = true ∧ z.2 < r₁.graph.size ∧
        r₁.graph.shape z.2 = x.graph.shape z.1 := by
      intro z hz
      obtain ⟨hDepends, hzLt, hzShape⟩ := hRest z hz
      refine ⟨hDepends, Nat.lt_of_lt_of_le hzLt hExtends₁.graph.size_le, ?_⟩
      rw [hExtends₁.graph.shape_eq hzLt, hzShape]
    apply Ensures.imp (ih h₁ hRest₁)
    rintro d₂ r₂ ⟨hExtends₂, h₂, hSame₂⟩
    rw [List.append_assoc] at h₂
    refine ⟨hExtends₁.trans hExtends₂, h₂, ?_⟩
    intro w hw
    rw [List.map_cons, List.mem_cons, not_or] at hw
    rw [hSame₂ w hw.2, hSame₁ w hw.1]

/-! ## What an operation gives -/

/-- The targets of the pullbacks are the operands that receive a contribution. -/
theorem map_fst_pullbacks {K : Type*} [Field K] {I : Interpretation K}
    {inputs : ValueId → Position → K} {s : Shape} (hFits : op.Fits (operands.map x.graph.shape) s)
    (hForeign : ∀ name, op ≠ .foreign name) (ct : Position → K) :
    (x.pullbacks I inputs op operands s ct).map (·.1) = x.receivers op operands := by
  have hShare : ∀ (w : ValueId) (e : Position → K),
      (x.share w e).map (·.1) = [w].filter x.depends.contains := by
    intro w e
    rw [share, List.filter_singleton]
    cases x.depends.contains w <;> rfl
  unfold pullbacks
  generalize hShapes : operands.map x.graph.shape = shapes at hFits
  -- An operation on two operands gives up to two, one on a single operand up to one; an indicator
  -- gives none.
  cases hFits with
  | arith | accumulate | contract =>
    obtain ⟨a, b, rfl, -, -⟩ := eq_pair_of_map hShapes
    simp [Operation.slots, receivers, hShare, ← List.filter_append]
  | indicator => rfl
  | foreign => exact absurd rfl (hForeign _)
  | _ =>
    obtain ⟨a, rfl, -⟩ := eq_singleton_of_map hShapes
    simp [Operation.slots, receivers, hShare]

theorem mem_of_mem_receivers {w : ValueId} (h : w ∈ x.receivers op operands) :
    w ∈ operands ∧ x.depends.contains w = true := by
  unfold receivers at h
  split at h
  · exact absurd h List.not_mem_nil
  · exact List.mem_filter.mp h

theorem handsOn_of_none (h : d v = none ∨ x.graph.op? v = none) :
    x.HandsOn d g v row ↔ row = [] := by
  unfold HandsOn
  rcases h with h | h
  · rw [h]
  · rw [h]
    cases d v <;> rfl

theorem handsOn_of_some {ct : ValueId} (hd : d v = some ct)
    (hOp : x.graph.op? v = some (op, operands)) :
    x.HandsOn d g v row ↔ row.map (·.1) = x.receivers op operands ∧
      ∃ r r' : Recorder, x.graph.Extends r.graph ∧ r'.graph.Extends g ∧
        (x.contributions op operands v ct).run r = (.ok row, r') := by
  unfold HandsOn
  rw [hd, hOp]

/-- What a value has given stays as it is while its cotangent does. -/
theorem HandsOn.extend (h : x.HandsOn d g v row) (hSame : d' v = d v) (hExtends : g.Extends g') :
    x.HandsOn d' g' v row := by
  cases hd : d v with
  | none =>
    rw [handsOn_of_none (Or.inl hd)] at h
    exact (handsOn_of_none (Or.inl (hSame.trans hd))).mpr h
  | some ct =>
    cases hOp : x.graph.op? v with
    | none =>
      rw [handsOn_of_none (Or.inr hOp)] at h
      exact (handsOn_of_none (Or.inr hOp)).mpr h
    | some made =>
      obtain ⟨hTargets, r, r', hSource, hInto, hRun⟩ := (handsOn_of_some hd hOp).mp h
      exact (handsOn_of_some (hSame.trans hd) hOp).mpr
        ⟨hTargets, r, r', hSource, hInto.trans hExtends, hRun⟩

/-- Recorded contributions go where the pullbacks do, and have the shapes of their targets. -/
theorem targets_of_gives {K : Type*} [Field K] {I : Interpretation K}
    {inputs : ValueId → Position → K} {pullbacks : List (ValueId × (Position → K))}
    (h : List.Forall₂ (Gives I inputs x g) pullbacks row) :
    row.map (·.1) = pullbacks.map (·.1) ∧
      ∀ y ∈ row, y.2 < g.size ∧ g.shape y.2 = x.graph.shape y.1 := by
  refine ⟨?_, hasShape_of_gives h⟩
  induction h with
  | nil => rfl
  | cons hOne _ ih => rw [List.map_cons, List.map_cons, hOne.1, ih]

/-- **An operation gives each receiver one contribution**, of the shape of that operand. -/
theorem yields_contributions_row (hUnderway : Underway plainReading x r) {s : Shape}
    (hGet : x.graph.get? v = some ⟨.op op operands, s⟩) (hForeign : ∀ name, op ≠ .foreign name)
    {ct : ValueId} (hLt : ct < r.graph.size) (hShape : r.graph.shape ct = x.graph.shape v) :
    Yields (x.contributions op operands v ct) r fun row r' => r.Extends r' ∧
      row.map (·.1) = x.receivers op operands ∧ ∀ y ∈ row, y.2 < r'.graph.size ∧
        r'.graph.shape y.2 = x.graph.shape y.1 := by
  have hCt := Graph.fills_self plainReading (0 : ValueId → Position → ℚ) hLt
  rw [hShape, Graph.shape_of_get? hGet] at hCt
  apply Yields.imp (yields_contributions (fun _ _ => rfl) ⟨hUnderway, hGet, hCt⟩ hForeign)
  rintro row r' ⟨hExtends, hGiven⟩
  obtain ⟨hTargets, hShapes⟩ := targets_of_gives hGiven
  refine ⟨hExtends, hTargets.trans ?_, hShapes⟩
  exact map_fst_pullbacks (hUnderway.source.fits hGet) hForeign _

/-! ## The way back -/

/-- The account of the way back so far: the cotangents add up the seeds and what the values passed
have given, and each of these has given what its cotangent makes it give. -/
structure Accounts (x : Reverse) (r₀ : Recorder) (seeded : List (ValueId × ValueId))
    (passed : List ValueId) (d : Derivatives) (r : Recorder)
    (rows : List (List (ValueId × ValueId))) : Prop where
  recorder : r₀.Extends r
  tallies : x.Tallies (seeded ++ rows.flatten) d r.graph
  rows : List.Forall₂ (x.HandsOn d r.graph) passed rows

variable {seeded : List (ValueId × ValueId)} {passed bound : List ValueId}
  {rows : List (List (ValueId × ValueId))}

/-- The next value gives its row, and those passed before keep their cotangents. -/
theorem Accounts.next {r' : Recorder} (h : x.Accounts r₀ seeded passed d r rows)
    (hExtends : r.Extends r') (hTallies : x.Tallies (seeded ++ rows.flatten ++ row) d' r'.graph)
    (hSame : ∀ w ∈ passed, d' w = d w) (hRow : x.HandsOn d' r'.graph v row) :
    x.Accounts r₀ seeded (passed ++ [v]) d' r' (rows ++ [row]) := by
  refine ⟨h.recorder.trans hExtends, ?_, List.rel_append ?_ (.cons hRow .nil)⟩
  · rwa [List.flatten_append, List.flatten_singleton, ← List.append_assoc]
  · refine List.forall₂_iff_zip.mpr ⟨h.rows.length_eq, fun {w row} hMem => ?_⟩
    exact ((List.forall₂_iff_zip.mp h.rows).2 hMem).extend
      (hSame w (List.of_mem_zip hMem).1) hExtends.graph

/-- **One step back.** The rule of the operation gets the cotangent that the value has in the end,
for all that is given goes to earlier values. -/
theorem yields_carryBack_tallies (hUnderway : Underway plainReading x r₀)
    (hRules : x.graph.HasRules) (h : x.Accounts r₀ seeded passed d r rows)
    (hPassed : ∀ w ∈ passed, v < w) :
    Yields (x.carryBack bound d v) r fun d' r' =>
      ∃ rows', x.Accounts r₀ seeded (passed ++ [v]) d' r' rows' := by
  have hStay : d v = none ∨ x.graph.op? v = none →
      x.Accounts r₀ seeded (passed ++ [v]) d r (rows ++ [[]]) := by
    intro hNone
    refine h.next (Recorder.Extends.refl r) ?_ (fun _ _ => rfl) ((handsOn_of_none hNone).mpr rfl)
    rw [List.append_nil]
    exact h.tallies
  unfold carryBack
  cases hd : d v with
  | none => exact yields_pure ⟨_, hStay (Or.inl hd)⟩
  | some ct =>
    cases hOp : x.graph.op? v with
    | none => exact yields_pure ⟨_, hStay (Or.inr hOp)⟩
    | some made =>
      obtain ⟨op, operands⟩ := made
      have hGet := Graph.op?_eq_some hOp
      have hForeign : ∀ name, op ≠ .foreign name := fun name hEq =>
        hRules v name operands (hEq ▸ hOp)
      obtain ⟨-, hLt, hShape⟩ := h.tallies.of_some v ct hd
      -- Whether the value gets a tag or not, the contributions come next.
      have hRest : ∀ {r₁ : Recorder}, r.Extends r₁ → Yields (do
          accumulateAll d (← x.contributions op operands v ct)) r₁ fun d' r' =>
            ∃ rows', x.Accounts r₀ seeded (passed ++ [v]) d' r' rows' := by
        intro r₁ hExtends₁
        have hUnderway₁ := hUnderway.extend (h.recorder.trans hExtends₁)
        have hGiven := yields_contributions_row hUnderway₁ hGet hForeign
          (Nat.lt_of_lt_of_le hLt hExtends₁.graph.size_le)
          ((hExtends₁.graph.shape_eq hLt).trans hShape)
        obtain ⟨row, r₂, hRun, hExtends₂, hTargets, hShapes⟩ := hGiven.exists_run
        refine Yields.bind (P := fun given r' => given = row ∧ r' = r₂) ⟨row, ?_, rfl, ?_⟩ ?_
        · exact congrArg Prod.fst hRun
        · exact congrArg Prod.snd hRun
        rintro given r₃ ⟨hGivenRow, hRecorder⟩
        subst given r₃
        have hReceives : ∀ y ∈ row, y.1 ∈ x.receivers op operands := by
          intro y hy
          rw [← hTargets]
          exact List.mem_map_of_mem hy
        have hAll := hExtends₁.trans hExtends₂
        apply Yields.imp (yields_lift (ensures_accumulateAll_tallies
          (h.tallies.extend hAll.graph) fun y hy =>
            ⟨(mem_of_mem_receivers (hReceives y hy)).2, hShapes y hy⟩))
        rintro d' r₃ ⟨hExtends₃, hTallies, hSame⟩
        -- The operands come before the value, and those passed after it.
        have hKept : ∀ w, v ≤ w → d' w = d w := by
          intro w hw
          apply hSame
          rw [hTargets]
          intro hMem
          have hBefore := hUnderway.source.before hGet w (mem_of_mem_receivers hMem).1
          exact absurd hBefore (Nat.not_lt.mpr hw)
        have hRow : x.HandsOn d' r₃.graph v row :=
          (handsOn_of_some ((hKept v (Nat.le_refl v)).trans hd) hOp).mpr
            ⟨hTargets, r₁, _, hUnderway₁.graph, hExtends₃.graph, hRun⟩
        exact ⟨_, h.next (hAll.trans hExtends₃) hTallies
          (fun w hw => hKept w (Nat.le_of_lt (hPassed w hw))) hRow⟩
      simp only
      split
      · apply Yields.bind (yields_lift (ensures_tag .cotangent v ct))
        rintro ⟨⟩ r₁ ⟨hExtends, -⟩
        exact hRest hExtends
      · exact hRest (Recorder.Extends.refl r)

/-- **All steps back.** -/
theorem yields_wayBack_tallies (hUnderway : Underway plainReading x r₀)
    (hRules : x.graph.HasRules) (h : x.Tallies seeded d r₀.graph) :
    Yields (x.graph.ids.reverse.foldlM (x.carryBack bound) d) r₀ fun d' r' =>
      ∃ rows, x.Accounts r₀ seeded x.graph.ids.reverse d' r' rows := by
  apply Yields.foldlM fun passed d r => ∃ rows, x.Accounts r₀ seeded passed d r rows
  · refine ⟨[], Recorder.Extends.refl r₀, ?_, .nil⟩
    rw [List.flatten_nil, List.append_nil]
    exact h
  · rintro passed v ahead d r hSplit ⟨rows, hAccounts⟩
    apply yields_carryBack_tallies hUnderway hRules hAccounts
    -- The values are passed from the last to the first.
    have hOrder : (ahead.reverse ++ [v] ++ passed.reverse).Pairwise (· < ·) := by
      have hIds : x.graph.ids = ahead.reverse ++ [v] ++ passed.reverse := by
        rw [← List.reverse_reverse x.graph.ids, hSplit]
        simp
      rw [← hIds]
      exact List.pairwise_lt_range
    intro w hw
    exact (List.pairwise_append.mp hOrder).2.2 v (by simp) w (by simpa using hw)

/-! ## Seeds -/

/-- **The seeds come first**: each output that depends on a chosen argument gets its own, in their
order. -/
theorem ensures_seedOutputs_tallies (hUnit : x.unit = none) (hGraph : x.graph.Extends r.graph)
    {outputs : List ValueId} (hOutputs : ∀ o ∈ outputs, o < x.graph.size) :
    Ensures (x.seedOutputs outputs) r fun d r' => ∃ seeds, r.Extends r' (seedArguments seeds) ∧
      x.graph.Seeds r'.graph outputs seeds ∧
      x.Tallies ((outputs.zip seeds).filter fun y => x.depends.contains y.1) d r'.graph := by
  unfold seedOutputs
  apply Ensures.foldlM fun before d r' => ∃ seeds, r.Extends r' (seedArguments seeds) ∧
    x.graph.Seeds r'.graph before seeds ∧
    x.Tallies ((before.zip seeds).filter fun y => x.depends.contains y.1) d r'.graph
  · exact ⟨[], Recorder.Extends.refl r, Graph.Seeds.nil _ _, tallies_none x r.graph⟩
  · rintro before o after d r₁ hSplit ⟨seeds, hExtends, hSeeds, hTallies⟩
    have ho : o < x.graph.size := hOutputs o (by rw [hSplit]; simp)
    have hGraph₁ := hGraph.trans hExtends.graph
    unfold seedOutput
    rw [hUnit]
    apply Ensures.bind (ensures_derivativeInput .cotangent o)
    rintro seed r₂ ⟨hExtends₂, hNew, hGet⟩
    rw [hGraph₁.shape_eq ho] at hGet
    have hTallies₂ := hTallies.extend hExtends₂.graph
    have hZip : (before ++ [o]).zip (seeds ++ [seed]) = before.zip seeds ++ [(o, seed)] :=
      List.zip_append hSeeds.length_eq.symm
    -- The seed counts only if the output depends on a chosen argument, and it is added only then.
    have hAdd : Ensures (if x.depends.contains o then accumulate d o seed else return d) r₂
        fun d' r₃ => r₂.Extends r₃ ∧ x.Tallies (((before ++ [o]).zip (seeds ++ [seed])).filter
          fun y => x.depends.contains y.1) d' r₃.graph := by
      rw [hZip, List.filter_append, List.filter_singleton]
      split
      · rename_i hDepends
        rw [hDepends]
        apply Ensures.imp (ensures_accumulate_tallies hTallies₂ hDepends
          (Graph.lt_size_of_get? hGet) (Graph.shape_of_get? hGet))
        rintro d' r₃ ⟨hExtends₃, hNext, -⟩
        exact ⟨hExtends₃, hNext⟩
      · rename_i hDepends
        rw [Bool.eq_false_iff.mpr hDepends, Bool.cond_false, List.append_nil]
        exact ⟨Recorder.Extends.refl r₂, hTallies₂⟩
    apply Ensures.imp hAdd
    rintro d' r₃ ⟨hExtends₃, hNext⟩
    have hAll := hExtends.trans (hExtends₂.trans hExtends₃)
    refine ⟨seeds ++ [seed], ?_, ?_, hNext⟩
    · rw [List.append_nil] at hAll
      rw [seedArguments, List.map_append]
      exact hAll
    · exact (hSeeds.push hGraph₁ hExtends₂.graph hNew hGet).extend hExtends₃.graph

/-! ## Outputs -/

/-- The output for an argument is its cotangent, or the constant zero if it has none. -/
def Closes (cotangents : Derivatives) (g : Graph) (a w : ValueId) : Prop :=
  cotangents a = some w ∨ cotangents a = none ∧ g.get? w = some ⟨.literal 0, []⟩

theorem Closes.extend {a w : ValueId} (h : Closes d g a w) (hExtends : g.Extends g') :
    Closes d g' a w :=
  h.imp_right fun ⟨hNone, hGet⟩ => ⟨hNone, hExtends.get?_of_some hGet⟩

theorem Tallies.all_lt (h : x.Tallies given d g) {wrt ws : List ValueId}
    (hCloses : List.Forall₂ (Closes d g) wrt ws) : ∀ w ∈ ws, w < g.size := by
  induction hCloses with
  | nil => simp
  | @cons a w _ _ hOne _ ih =>
    refine List.forall_mem_cons.mpr ⟨?_, ih⟩
    rcases hOne with hSome | ⟨-, hGet⟩
    · exact (h.of_some a w hSome).2.1
    · exact Graph.lt_size_of_get? hGet

theorem ensures_argumentCotangents_closes (d : Derivatives) (r : Recorder) (wrt : List ValueId) :
    Ensures (argumentCotangents d wrt) r fun ws r' => r.Extends r' ∧
      List.Forall₂ (Closes d r'.graph) wrt ws := by
  apply ensures_mapM_forall₂ (R := Closes d) Closes.extend
  intro a _ r₁ _
  exact ensures_knownOrZero .cotangent a (d a)

/-- A reverse differentiation from seeds that are inputs, and what its cotangents add up. -/
theorem yields_recordReverse_tallies {g : Graph} (hg : g.WellFormed) (hRules : g.HasRules)
    (hGraph : r.graph = g) (bound : List ValueId) {wrt : List ValueId}
    (hLeaf : ∀ a ∈ wrt, g.get? a = some ⟨.leaf, g.shape a⟩) {outputs : List ValueId}
    (hOutputs : ∀ o ∈ outputs, o < g.size) :
    Yields (recordReverse g bound wrt outputs false) r fun ws r' => ∃ seeds cotangents rows,
      r.Extends r' (seedArguments seeds) ∧ g.Seeds r'.graph outputs seeds ∧
      Tallies ⟨g, none, dependents g wrt⟩ ((outputs.zip seeds).filter
        (fun y => (dependents g wrt).contains y.1) ++ rows.flatten) cotangents r'.graph ∧
      List.Forall₂ (HandsOn ⟨g, none, dependents g wrt⟩ cotangents r'.graph) g.ids.reverse rows ∧
      List.Forall₂ (Closes cotangents r'.graph) wrt ws := by
  subst hGraph
  let x : Reverse := ⟨r.graph, none, dependents r.graph wrt⟩
  have hUnderway : Underway plainReading x r :=
    ⟨Graph.Extends.refl _, hg, hg, fun h => absurd h (by simp [x]),
      not_literal_of_depends hLeaf, fun u hu => absurd hu (by simp [x])⟩
  unfold recordReverse
  rw [if_neg Bool.false_ne_true]
  have hUnit : Yields (pure none : Differentiating (Option ValueId)) r fun u r' =>
      u = none ∧ r' = r := yields_pure ⟨rfl, rfl⟩
  apply hUnit.bind
  rintro unit r₁ ⟨rfl, rfl⟩
  -- Three stages follow: the seeds, the way back, and the outputs.
  apply Yields.bind (yields_lift (ensures_seedOutputs_tallies (x := x) rfl (Graph.Extends.refl _)
    hOutputs))
  rintro d r₁ ⟨seeds, hExtends₁, hSeeds, hTallies⟩
  apply Yields.bind (yields_wayBack_tallies (hUnderway.extend hExtends₁) hRules hTallies)
  rintro cotangents r₂ ⟨rows, hExtends₂, hTallies₂, hRows⟩
  apply Yields.imp (yields_lift (ensures_argumentCotangents_closes cotangents r₂ wrt))
  rintro ws r₃ ⟨hExtends₃, hCloses⟩
  have hLater := hExtends₂.trans hExtends₃
  refine ⟨seeds, cotangents, rows, ?_, hSeeds.extend hLater.graph, hTallies₂.extend hExtends₃.graph,
    hRows.imp fun _ _ hRow => hRow.extend rfl hExtends₃.graph, hCloses⟩
  have hAll := hExtends₁.trans hLater
  rw [List.append_nil, List.append_nil] at hAll
  exact hAll

/-! ## Counting -/

/-- A value gives another one as many contributions as it has slots for it. -/
theorem HandsOn.length_contributionsTo (h : x.HandsOn d g v row) {target : ValueId}
    (hTarget : x.depends.contains target = true) :
    (contributionsTo target row).length = x.giftCount d target v := by
  have hNone : row = [] → (contributionsTo target row).length = 0 := by
    rintro rfl
    rfl
  unfold giftCount
  cases hd : d v with
  | none => exact hNone ((handsOn_of_none (Or.inl hd)).mp h)
  | some ct =>
    cases hOp : x.graph.op? v with
    | none => exact hNone ((handsOn_of_none (Or.inr hOp)).mp h)
    | some made =>
      obtain ⟨op, operands⟩ := made
      obtain ⟨hTargets, -⟩ := (handsOn_of_some hd hOp).mp h
      rw [ArrayEquations.length_contributionsTo, hTargets]
      cases op with
      | indicator comparison => rfl
      | _ => exact List.count_filter hTarget

theorem length_contributionsTo_flatten {target : ValueId}
    (hTarget : x.depends.contains target = true)
    (h : List.Forall₂ (x.HandsOn d g) passed rows) :
    (contributionsTo target rows.flatten).length = (passed.map (x.giftCount d target)).sum := by
  induction h with
  | nil => rfl
  | cons hOne _ ih =>
    rw [List.flatten_cons, contributionsTo_append, List.length_append,
      hOne.length_contributionsTo hTarget, ih, List.map_cons, List.sum_cons]

end Reverse

open Reverse Differentiating in
/-- **Contributions are neither lost nor duplicated, and keep their order.** For an imported trace
of operations that have rules, with at least one argument, and for any valid positions, there is a
reverse derivative. Its output for an argument adds up, from the left, the seeds of the outputs
that are this argument and then what the operations give it, from the last to the first, one
contribution for each slot that holds it; it is the constant zero if there is nothing to add. What
an operation gives is what its rule records for the cotangent that it has in the end, which itself
adds up the contributions to the operation's result. -/
theorem Trace.cotangents_add_up {draft : TraceDraft} {t : Trace}
    (hTrace : Trace.ofDraft draft = .ok t) (hRules : t.graph.HasRules)
    (hArguments : t.arguments ≠ []) {positions : List Nat}
    (hPositions : ∀ p ∈ positions, p < t.arguments.length) :
    ∃ wrt t' seeds cotangents rows, selectArguments t positions = .ok wrt ∧
      t.differentiate .vjp positions = .ok t' ∧
      t'.arguments = t.arguments ++ seedArguments seeds ∧
      t.graph.Seeds t'.graph t.outputs seeds ∧
      List.Forall₂ (HandsOn ⟨t.graph, none, dependents t.graph wrt⟩ cotangents t'.graph)
        t.graph.ids.reverse rows ∧
      (∀ v, v ∉ dependents t.graph wrt → cotangents v = none) ∧
      (∀ v ∈ dependents t.graph wrt,
        match cotangents v with
        | none => contributionsTo v (t.outputs.zip seeds ++ rows.flatten) = []
        | some ct => t'.graph.AddsUp (contributionsTo v (t.outputs.zip seeds ++ rows.flatten)) ct) ∧
      List.Forall₂ (Closes cotangents t'.graph) wrt t'.outputs ∧
      ∀ a ∈ wrt, a ∈ dependents t.graph wrt ∧
        (contributionsTo a (t.outputs.zip seeds ++ rows.flatten)).length =
          t.outputs.count a + (t.graph.ids.reverse.map
            (giftCount ⟨t.graph, none, dependents t.graph wrt⟩ cotangents a)).sum := by
  have h := Trace.wellFormed_of_ofDraft hTrace
  obtain ⟨wrt, hSelect, hSelects⟩ := t.exists_selectArguments h hPositions
  have hLeaf : ∀ a ∈ wrt, t.graph.get? a = some ⟨.leaf, t.graph.shape a⟩ :=
    fun a ha => hSelects.leaf h ha
  let x : Reverse := ⟨t.graph, none, dependents t.graph wrt⟩
  obtain ⟨ws, r, hRun, seeds, cotangents, rows, hExtends, hSeeds, hTallies, hRows, hCloses⟩ :=
    (yields_recordReverse_tallies (r := t.recorder) h.graph hRules rfl (t.bindings.map (·.value))
      hLeaf h.output_lt).exists_run
  -- A seed of an output that does not depend on a chosen argument counts for nothing.
  have hSeeded : ∀ v ∈ dependents t.graph wrt,
      contributionsTo v ((t.outputs.zip seeds).filter
          (fun y => (dependents t.graph wrt).contains y.1) ++ rows.flatten) =
        contributionsTo v (t.outputs.zip seeds ++ rows.flatten) := by
    intro v hv
    rw [contributionsTo_append, contributionsTo_append,
      contributionsTo_filter (p := (dependents t.graph wrt).contains)
        (List.contains_iff_mem.mpr hv)]
  have hDepends : ∀ a ∈ wrt, a ∈ dependents t.graph wrt := by
    intro a ha
    refine mem_dependents ha (Graph.lt_size_of_get? (hLeaf a ha)) ?_
    rw [Graph.op?, hLeaf a ha]
    rfl
  have hNonempty : ws ≠ [] := by
    rintro rfl
    exact hSelects.nonempty hArguments (List.length_eq_zero_iff.mp hCloses.length_eq)
  have hExtend := Trace.extend_eq_ok h hRun hExtends hNonempty (hTallies.all_lt hCloses)
  refine ⟨wrt, ⟨t.name, r.graph, r.arguments, r.bindings, r.tags, ws⟩, seeds, cotangents, rows,
    hSelect, ?_, hExtends.arguments, hSeeds, hRows, ?_, ?_, hCloses, ?_⟩
  · rw [differentiate_vjp hSelect]
    exact hExtend
  · intro v hv
    exact hTallies.eq_none (by simpa using hv)
  · intro v hv
    have hSame := hSeeded v hv
    split
    · rename_i hNone
      rw [← hSame]
      exact hTallies.of_none v hNone
    · rename_i ct hSome
      rw [← hSame]
      exact (hTallies.of_some v ct hSome).1
  · intro a ha
    refine ⟨hDepends a ha, ?_⟩
    have hTarget : x.depends.contains a = true := List.contains_iff_mem.mpr (hDepends a ha)
    rw [contributionsTo_append, List.length_append, length_contributionsTo,
      length_contributionsTo_flatten (x := x) hTarget hRows, List.map_fst_zip]
    exact Nat.le_of_eq hSeeds.length_eq.symm

/-- A document of a square, with its argument as a second and a third output. -/
def squareAndRootsDraft : TraceDraft where
  name := "square"
  arguments := [⟨0, some "x", false⟩]
  values := [.leaf 0 [], .op 1 "mul" [0, 0] [] {}]
  bindings := []
  tags := []
  outputs := [1, 0, 0]

/-- The trace of that document. -/
def squareAndRoots : Trace where
  name := "square"
  graph := ⟨#[⟨.leaf, []⟩, ⟨.op (.arith .mul) [0, 0], []⟩]⟩
  arguments := [⟨0, some "x", false⟩]
  bindings := []
  tags := []
  outputs := [1, 0, 0]

/-- The cotangent of a number that is squared and returned twice adds up two seeds and two
contributions of the product. -/
theorem Trace.cotangents_add_up_squareAndRoots :
    ∃ t' s₀ s₁ s₂ c₁ c₂ cotangent, squareAndRoots.differentiate .vjp [0] = .ok t' ∧
      t'.arguments = squareAndRoots.arguments ++ seedArguments [s₀, s₁, s₂] ∧
      t'.outputs = [cotangent] ∧ t'.graph.AddsUp [s₁, s₂, c₁, c₂] cotangent := by
  have hRules : squareAndRoots.graph.HasRules := by
    intro v name operands hOp
    have hGet := Graph.op?_eq_some hOp
    have hv : v < 2 := Graph.lt_size_of_get? hGet
    match v, hv with
    | 0, _ => exact absurd hGet (by simp [squareAndRoots, Graph.get?])
    | 1, _ => exact absurd hGet (by simp [squareAndRoots, Graph.get?])
  have hTrace : Trace.ofDraft squareAndRootsDraft = .ok squareAndRoots := by decide
  obtain ⟨wrt, t', seeds, cotangents, rows, hSelect, hDerivative, hArguments, hSeeds, hRows, -,
    hSums, hCloses, -⟩ := @Trace.cotangents_add_up _ _ hTrace hRules (by decide) [0] (by decide)
  obtain rfl : wrt = [0] := by
    have hZero : selectArguments squareAndRoots [0] = .ok [0] := by decide
    exact Except.ok.inj (hSelect.symm.trans hZero)
  obtain ⟨s₀, s₁, s₂, rfl⟩ := List.length_eq_three.mp hSeeds.length_eq
  -- The square comes first on the way back, and its argument, which gives nothing, last.
  have hIds : squareAndRoots.graph.ids.reverse = [1, 0] := by decide
  rw [hIds] at hRows
  obtain ⟨row, rest, hRow, hRest, rfl⟩ := List.forall₂_cons_left_iff.mp hRows
  obtain ⟨last, none, hLast, hNil, rfl⟩ := List.forall₂_cons_left_iff.mp hRest
  obtain rfl := List.forall₂_nil_left_iff.mp hNil
  obtain rfl : last = [] := (Reverse.handsOn_of_none (Or.inr (by decide))).mp hLast
  obtain ⟨cotangent, none, hOut, hNil, hOutputs⟩ := List.forall₂_cons_left_iff.mp hCloses
  obtain rfl := List.forall₂_nil_left_iff.mp hNil
  have hSquare := hSums 1 (by decide)
  have hRoot := hSums 0 (by decide)
  have hGiven : ∃ ct, cotangents 1 = some ct := by
    cases h : cotangents 1 with
    | some ct => exact ⟨ct, rfl⟩
    | none =>
      rw [h] at hSquare
      exact absurd hSquare (by simp [contributionsTo, squareAndRoots])
  obtain ⟨ct, hct⟩ := hGiven
  have hOp : squareAndRoots.graph.op? 1 = some (.arith .mul, [0, 0]) := by decide
  obtain ⟨hTargets, -⟩ := (Reverse.handsOn_of_some hct hOp).mp hRow
  have hReceivers : Reverse.receivers ⟨squareAndRoots.graph, none,
      dependents squareAndRoots.graph [0]⟩ (.arith .mul) [0, 0] = [0, 0] := by decide
  rw [hReceivers] at hTargets
  obtain ⟨⟨a₁, c₁⟩, ⟨a₂, c₂⟩, rfl⟩ : ∃ x y, row = [x, y] := by
    rw [← List.length_eq_two, ← List.length_map (·.1), hTargets]
    rfl
  obtain ⟨rfl, rfl⟩ : a₁ = 0 ∧ a₂ = 0 := by simpa using hTargets
  refine ⟨t', s₀, s₁, s₂, c₁, c₂, cotangent, hDerivative, hArguments, hOutputs, ?_⟩
  rcases hOut with h | ⟨h, -⟩
  · rw [h] at hRoot
    simpa [contributionsTo, squareAndRoots] using hRoot
  · rw [h] at hRoot
    exact absurd hRoot (by simp [contributionsTo, squareAndRoots])

end ArrayEquations

import ArrayEquations.Proofs.ForwardShapes
import ArrayEquations.Proofs.InheritedProperties

/-!
# ArrayEquations — what a forward differentiation hands down

A tangent has the shape of its primal, and everything that is recorded on the way to it stretches
to that shape. So a property that is inherited along admitted shapes is handed down by a forward
differentiation if the shapes of the graph are admitted.

## Main results

* `Forward.handsDown_tangentOf` — the tangent of one operation.
* `Forward.handsDown_recordForward` — a whole forward differentiation.
-/

namespace ArrayEquations

namespace Forward

open Recording Differentiating

/-- A tangent that is there stretches to the shape. -/
def TangentWithin (out : Shape) (tangent : Option ValueId) (r : Recorder) : Prop :=
  ∀ t ∈ tangent, r.graph.Within out t

theorem TangentWithin.extend {out : Shape} {tangent : Option ValueId} {r r' : Recorder}
    (h : TangentWithin out tangent r) (hExtends : r.graph.Extends r'.graph) :
    TangentWithin out tangent r' :=
  fun t ht => (h t ht).extend hExtends

variable {P : Graph → Prop} {Admits : Shape → Prop} {Strict : Prop} {r : Recorder}
  {a b o : ValueId} {s out : Shape} {ta tb : Option ValueId}

/-! ## Tangents of elementwise operations -/

theorem inherits_none : Inherits P (pure none) r (TangentWithin out) :=
  inherits_pure fun t ht => absurd ht (by simp)

theorem inherits_some {m : Recording ValueId}
    (h : Inherits P m r fun v r' => r'.graph.Within out v) :
    Inherits P (some <$> m) r (TangentWithin out) := by
  apply inherits_map
  apply h.imp
  rintro v r' hv t ⟨⟩
  exact hv

/-- What is done with a tangent, if there is one. -/
theorem inherits_through {f : ValueId → Recording ValueId}
    (h : ∀ t ∈ ta, Inherits P (f t) r fun v r' => r'.graph.Within out v) :
    Inherits P (through ta f) r (TangentWithin out) := by
  cases ta with
  | none => exact inherits_none
  | some t => exact inherits_some (h t rfl)

/-- Two parts of a tangent, each from one operand, and what joins them. -/
theorem inherits_both {left right : Recording (Option ValueId)}
    {join : Option ValueId → Option ValueId → Recording (Option ValueId)}
    (hLeft : Inherits P left r (TangentWithin out))
    (hRight : ∀ r', r.graph.Extends r'.graph → Inherits P right r' (TangentWithin out))
    (hJoin : ∀ {r' ta tb}, TangentWithin out ta r' → TangentWithin out tb r' →
      Inherits P (join ta tb) r' (TangentWithin out)) :
    Inherits P (do join (← left) (← right)) r (TangentWithin out) := by
  apply hLeft.bind
  intro ta r₁ hExtends₁ ha
  apply (hRight r₁ hExtends₁).bind
  intro tb r₂ hExtends₂ hb
  exact hJoin (ha.extend hExtends₂) hb

section

variable (hP : Graph.Inherited P Admits Strict) (hs : Admits out)

include hP hs

theorem inherits_add (ha : TangentWithin out ta r) (hb : TangentWithin out tb r) :
    Inherits P (add ta tb) r (TangentWithin out) := by
  unfold add
  split
  · exact inherits_some (inherits_arith hP hs .add (ha _ rfl) (hb _ rfl))
  · exact inherits_pure ha
  · exact inherits_pure hb

theorem inherits_sub (ha : TangentWithin out ta r) (hb : TangentWithin out tb r) :
    Inherits P (sub ta tb) r (TangentWithin out) := by
  unfold sub
  split
  · exact inherits_some (inherits_arith hP hs .sub (ha _ rfl) (hb _ rfl))
  · exact inherits_pure ha
  · exact inherits_some (inherits_neg hP hs (hb _ rfl))

theorem inherits_accumulate (ha : TangentWithin out ta r) (hb : TangentWithin out tb r) :
    Inherits P (accumulate ta tb) r (TangentWithin out) := by
  unfold accumulate
  split
  · exact inherits_some ((inherits_elementwise hP hs rfl (ha _ rfl) (hb _ rfl)).imp
      fun _ _ h => h.1)
  · exact inherits_pure ha
  · exact inherits_pure hb

theorem inherits_callTangent (f : NamedFunction) {t : ValueId} (ha : r.graph.Within out a)
    (ho : r.graph.Within out o) (ht : r.graph.Within out t) :
    Inherits P (callTangent f a o t) r fun v r' => r'.graph.Within out v := by
  -- The slope is recorded first, if it is not there already, and then multiplied with the tangent.
  cases f with
  | relu =>
    apply (inherits_positive hP hs ha).bind
    intro slope r₁ hExtends hSlope
    exact inherits_arith hP hs .mul hSlope (ht.extend hExtends)
  | exp => exact inherits_arith hP hs .mul ho ht
  | log => exact inherits_arith hP hs .div ht ha
  | sin =>
    apply (inherits_call hP hs .cos ha).bind
    intro slope r₁ hExtends hSlope
    exact inherits_arith hP hs .mul hSlope (ht.extend hExtends)
  | cos =>
    apply (inherits_call hP hs .sin ha).bind
    intro slope r₁ hExtends hSlope
    apply (inherits_arith hP hs .mul hSlope (ht.extend hExtends)).bind
    intro product r₂ _ hProduct
    exact inherits_neg hP hs hProduct
  | tanh =>
    apply (inherits_arithRight hP hs .pow 2 ho).bind
    intro square r₁ hExtends₁ hSquare
    apply (inherits_arithLeft hP hs .sub 1 hSquare).bind
    intro slope r₂ hExtends₂ hSlope
    exact inherits_arith hP hs .mul hSlope (ht.extend (hExtends₁.trans hExtends₂))
  | sqrt =>
    apply (inherits_arithLeft hP hs .mul 2 ho).bind
    intro double r₁ hExtends hDouble
    exact inherits_arith hP hs .div (ht.extend hExtends) hDouble

theorem inherits_arithTangent (op : Arith) (ha : r.graph.Within out a)
    (hb : r.graph.Within out b) (ho : r.graph.Within out o) (hta : TangentWithin out ta r)
    (htb : TangentWithin out tb r) :
    Inherits P (arithTangent op a b o ta tb) r (TangentWithin out) := by
  -- Each operator records its two summands in turn and then their sum or their difference.
  cases op with
  | add => exact inherits_add hP hs hta htb
  | sub => exact inherits_sub hP hs hta htb
  | mul =>
    refine inherits_both (inherits_through fun t ht => inherits_arith hP hs .mul (hta t ht) hb) ?_
      (inherits_add hP hs)
    intro r₁ hExtends
    exact inherits_through fun t ht =>
      inherits_arith hP hs .mul (ha.extend hExtends) ((htb t ht).extend hExtends)
  | div =>
    refine inherits_both (inherits_through fun t ht => inherits_arith hP hs .div (hta t ht) hb) ?_
      (inherits_sub hP hs)
    intro r₁ hExtends
    refine inherits_through fun t ht => ?_
    apply (inherits_arith hP hs .mul (ha.extend hExtends) ((htb t ht).extend hExtends)).bind
    intro product r₂ hExtends₂ hProduct
    apply (inherits_arithRight hP hs .pow 2 (hb.extend (hExtends.trans hExtends₂))).bind
    intro square r₃ hExtends₃ hSquare
    exact inherits_arith hP hs .div (hProduct.extend hExtends₃) hSquare
  | pow =>
    refine inherits_both (inherits_through fun t ht => ?_) ?_ (inherits_add hP hs)
    · apply (inherits_powerSlope hP hs ha hb).bind
      intro slope r₁ hExtends hSlope
      exact inherits_arith hP hs .mul hSlope ((hta t ht).extend hExtends)
    · intro r₁ hExtends
      refine inherits_through fun t ht => ?_
      apply (inherits_call hP hs .log (ha.extend hExtends)).bind
      intro log r₂ hExtends₂ hLog
      have hGraph := hExtends.trans hExtends₂
      apply (inherits_arith hP hs .mul (ho.extend hGraph) hLog).bind
      intro slope r₃ hExtends₃ hSlope
      exact inherits_arith hP hs .mul hSlope ((htb t ht).extend (hGraph.trans hExtends₃))

end

/-! ## Tangents of operations -/

variable {g : Graph} {wrt : List ValueId} {d : Derivatives} {v : ValueId}

section

variable (hP : Graph.Inherited P Admits Strict) (hShapes : ∀ v, Admits (g.shape v))

include hP

/-- The tangent of an operation on one operand, which is done to the operand's tangent. -/
theorem inherits_push_through {op : Operation} {sa : Shape} (hPlain : op.isPlain = true)
    (hs : Admits s) (hShape : op.resultShape [sa] = .ok s) (hta : Shaped r.graph sa ta) :
    Inherits P (through ta fun t => push op [t]) r (TangentWithin s) := by
  refine inherits_through fun t ht => ?_
  have hResult : op.resultShape ([t].map r.graph.shape) = .ok s := by
    rwa [List.map_singleton, (hta t ht).2]
  exact (inherits_push hP hPlain hResult hs).imp fun _ _ h => h.within (Shape.Below.refl s)

/-- The tangent of a contraction contracts either operand with the other's tangent. -/
theorem inherits_contractTangent {axes : ContractionAxes} {ls rs : Shape}
    (hs : Admits (axes.outShape ls rs)) (hPairable : axes.Pairable ls rs)
    (ha : r.graph.HasShape a ls) (hb : r.graph.HasShape b rs) (hta : Shaped r.graph ls ta)
    (htb : Shaped r.graph rs tb) :
    Inherits P (do
      let l ← through ta fun t => contract axes t b
      let rt ← through tb fun t => contract axes a t
      Forward.add l rt) r (TangentWithin (axes.outShape ls rs)) := by
  have hContract : ∀ {r : Recorder} {x y : ValueId}, r.graph.HasShape x ls →
      r.graph.HasShape y rs → Inherits P (contract axes x y) r fun v r' =>
        r'.graph.Within (axes.outShape ls rs) v := by
    intro r x y hx hy
    have hResult : (Operation.contract axes).resultShape ([x, y].map r.graph.shape) =
        .ok (axes.outShape ls rs) := by
      rw [List.map_cons, List.map_singleton, hx.2, hy.2]
      exact ContractionAxes.resultShape_eq_ok.mpr ⟨hPairable, rfl⟩
    exact (inherits_push hP rfl hResult hs).imp fun _ _ h => h.within (Shape.Below.refl _)
  refine inherits_both (inherits_through fun t ht => hContract (hta t ht) hb) ?_
    (inherits_add hP hs)
  intro r₁ hExtends
  exact inherits_through fun t ht => hContract (ha.extend hExtends) ((htb t ht).extend hExtends)

include hShapes

/-- **The tangent of an operation hands properties down.** Its operands stretch to the result, and
their tangents have their shapes. -/
theorem handsDown_tangentOf (hg : g.WellFormed) {op : Operation} {operands : List ValueId}
    (hGet : g.get? v = some ⟨.op op operands, s⟩) (h : Carries g wrt d r)
    (hReshape : Strict → ∀ a, g.op? v = some (.reshape, [a]) →
      (g.shape a).nonSingleton = (g.shape v).nonSingleton) :
    HandsDown P (tangentOf op operands v s d) r := by
  have hv := Graph.lt_size_of_get? hGet
  have hs : Admits s := by
    have hShape := hShapes v
    rwa [Graph.shape_of_get? hGet] at hShape
  have hHas : ∀ w ∈ operands, r.graph.HasShape w (g.shape w) := fun w hw =>
    Graph.HasShape.extend ⟨Nat.lt_trans (hg.before hGet w hw) hv, rfl⟩ h.graph
  have ho : r.graph.Within s v :=
    ((Graph.hasShape_of_get? hGet).extend h.graph).within (Shape.Below.refl s)
  have hTangent : ∀ w, (g.shape w).Below s → TangentWithin s (d w) r := fun w hBelow t ht =>
    (h.shape w t ht).within hBelow
  have hLift : ∀ {m : Recording (Option ValueId)}, Inherits P m r (TangentWithin s) →
      HandsDown P (liftM m) r := fun hm => handsDown_lift hm.only
  have hFits := hg.fits hGet
  unfold tangentOf
  simp only
  split
  · exact handsDown_pure trivial
  · generalize hOperands : operands.map g.shape = shapes at hFits
    cases hFits with
    | @arith op _ _ _ hBroadcast =>
      obtain ⟨a, b, rfl, rfl, rfl⟩ := eq_pair_of_map hOperands
      obtain ⟨ha, hb⟩ := Shape.below_of_broadcast hBroadcast
      exact hLift (inherits_arithTangent hP hs op ((hHas a (by simp)).within ha)
        ((hHas b (by simp)).within hb) ho (hTangent a ha) (hTangent b hb))
    | accumulate hBroadcast =>
      obtain ⟨a, b, rfl, rfl, rfl⟩ := eq_pair_of_map hOperands
      obtain ⟨ha, hb⟩ := Shape.below_of_broadcast hBroadcast
      exact hLift (inherits_accumulate hP hs (hTangent a ha) (hTangent b hb))
    | neg =>
      obtain ⟨a, rfl, rfl⟩ := eq_singleton_of_map hOperands
      exact hLift (inherits_push_through hP rfl hs rfl (h.shape a))
    | @call f =>
      obtain ⟨a, rfl, rfl⟩ := eq_singleton_of_map hOperands
      exact hLift (inherits_through fun t ht => inherits_callTangent hP hs f
        ((hHas a (by simp)).within (Shape.Below.refl _)) ho
        (hTangent a (Shape.Below.refl _) t ht))
    | indicator => exact handsDown_pure trivial
    | contract hPairable =>
      obtain ⟨a, b, rfl, rfl, rfl⟩ := eq_pair_of_map hOperands
      exact hLift (inherits_contractTangent hP hs hPairable (hHas a (by simp)) (hHas b (by simp))
        (h.shape a) (h.shape b))
    | reduceSum hAxes hNodup =>
      obtain ⟨a, rfl, rfl⟩ := eq_singleton_of_map hOperands
      exact hLift (inherits_push_through hP rfl hs (sumShape_eq_ok.mpr ⟨⟨hAxes, hNodup⟩, rfl⟩)
        (h.shape a))
    | broadcast hStretches =>
      exact hLift (inherits_through fun t _ =>
        (inherits_pushShaped hP rfl hs).imp fun _ _ h => h.within (Shape.Below.refl s))
    | transpose hLength hAxes hNodup =>
      obtain ⟨a, rfl, rfl⟩ := eq_singleton_of_map hOperands
      exact hLift (inherits_push_through hP rfl hs
        (transposeShape_eq_ok.mpr ⟨⟨hLength, hAxes, hNodup⟩, rfl⟩) (h.shape a))
    | cast =>
      obtain ⟨a, rfl, rfl⟩ := eq_singleton_of_map hOperands
      exact hLift (inherits_push_through hP rfl hs rfl (h.shape a))
    | reshape =>
      -- The reshape does in the derivative what it does in the graph.
      obtain ⟨a, rfl, rfl⟩ := eq_singleton_of_map hOperands
      refine handsDown_lift ?_
      show Inherits P (through (d a) fun t => reshape t s) r
      cases ht : d a with
      | none => exact inherits_pure trivial
      | some t =>
        obtain ⟨hLt, hShape⟩ := h.shape a t ht
        refine inherits_map (Inherits.only (inherits_reshape hP hs hLt fun hStrict => ?_))
        have hSame := hReshape hStrict a (Graph.op?_of_get? hGet)
        rw [Graph.shape_of_get? hGet] at hSame
        rw [hShape, hSame]
    | foreign => exact handsDown_throw _

/-! ## A forward differentiation -/

/-- **A forward differentiation hands properties down.** -/
theorem handsDown_recordForward (hg : g.WellFormed) (hRules : g.HasRules)
    (hFull : g.FullSummands wrt) (hGraph : r.graph = g) (hNodup : wrt.Nodup)
    (hWrt : ∀ a ∈ wrt, a < g.size)
    (hReshapes : Strict → ∀ v a, g.op? v = some (.reshape, [a]) →
      (g.shape a).nonSingleton = (g.shape v).nonSingleton) (outputs : List ValueId) :
    HandsDown P (recordForward g wrt outputs) r := by
  unfold recordForward
  -- The seeds are inputs of the arguments' shapes.
  have hSeeds : Inherits P (seedTangents wrt) r fun d r₁ => Carries g wrt d r₁ := by
    have hAll : Inherits P (seedTangents wrt) r := by
      refine inherits_foldlM (fun _ _ => True) trivial fun a ha d r₁ hExtends _ => ?_
      have hShape : r₁.graph.shape a = g.shape a := by
        rw [hExtends.shape_eq (hGraph ▸ hWrt a ha), hGraph]
      exact (inherits_derivativeInput hP .tangent (hShape ▸ hShapes a)).bind fun t r₂ _ _ =>
        inherits_pure trivial
    obtain ⟨seeds, hSeeded⟩ := ensures_seedTangents (r := r) hNodup fun a ha => by
      rw [hGraph]
      exact hWrt a ha
    have hCarries : Ensures (seedTangents wrt) r fun d r₁ => Carries g wrt d r₁ :=
      hSeeded.carries hGraph
    exact (hAll.and hCarries).imp fun _ _ h => h.2
  apply (handsDown_lift hSeeds).bind
  intro d r₁ hCarries
  apply (handsDown_foldlM (fun d' r' => Carries g wrt d' r') hCarries ?_).bind
  · intro d' r₂ _
    exact (handsDown_lift (inherits_mapM (fun o r =>
      inherits_knownOrZero hP .tangent o (d' o)) outputs r₂)).bind fun ts r₃ _ =>
        handsDown_pure trivial
  · intro d v r hCarries
    have hStep : HandsDown P (carryTangent g d v) r := by
      unfold carryTangent
      cases hOp : g.op? v with
      | none => exact handsDown_pure trivial
      | some made =>
        obtain ⟨op, operands⟩ := made
        apply (handsDown_tangentOf hP hShapes hg (Graph.op?_eq_some hOp) hCarries
          fun hStrict => hReshapes hStrict v).bind
        intro t r₁ _
        cases t with
        | none => exact handsDown_pure trivial
        | some t => exact (handsDown_lift (inherits_tag .tangent v t)).bind fun _ _ _ =>
            handsDown_pure trivial
    have hShaped := shaped_carryTangent hg hRules hFull hCarries v
    exact (hStep.and fun _ _ hRun => (hShaped.run_eq hRun).2).imp fun _ _ h => h.2

end

end Forward

end ArrayEquations

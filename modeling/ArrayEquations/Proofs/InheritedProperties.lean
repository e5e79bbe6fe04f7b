import ArrayEquations.Proofs.CountedShapes
import ArrayEquations.Proofs.Extension

/-!
# ArrayEquations — properties that recording hands down

Some properties of a graph hold of every graph with more values in it, as long as the new values
have shapes of a certain kind: that every number of entries fits a word, or that every operation
can be written. A property of this sort is handed down by each action of a recording, however the
action ends. What has to be known for that is how large its operands are.

Elementwise operations record values that stretch to the common shape of their operands. Undoing a
stretch leaves axes out, and may reshape what remains.

## Main definitions

* `Graph.Inherited` — a property that graphs with more values of admitted shapes have as well.
* `Graph.Within`, `Graph.Admitted` — a value stretches to a shape, and a value of an admitted shape.
* `Recording.Inherits`, `Differentiating.HandsDown` — an action hands a property down.

## Main results

* `Graph.inherited_countable` — that numbers of entries fit a word is such a property.
* `Recording.inherits_elementwise` — elementwise operations hand properties down.
* `Reverse.inherits_unbroadcast` — and so does what undoes a stretch.
-/

namespace ArrayEquations

/-- The operation is neither foreign nor a reshape. -/
def Operation.isPlain : Operation → Bool
  | .foreign _ | .reshape => false
  | _ => true

namespace Graph

/-- The property holds of a graph with one more value, if it held before and the shape of the value
is admitted. A shape is admitted with every larger one. Where the property is strict, reshapes must
not do more than insert or drop axes of extent one. -/
structure Inherited (P : Graph → Prop) (Admits : Shape → Prop) (Strict : Prop) : Prop where
  admits_nil : Admits []
  admits_of_le : ∀ {s t : Shape}, Admits t → s.bulk ≤ t.bulk → Admits s
  push_leaf : ∀ {g : Graph} {s : Shape}, P g → Admits s → P (g.push ⟨.leaf, s⟩)
  push_literal : ∀ {g : Graph} {x : Float}, P g → P (g.push ⟨.literal x, []⟩)
  push_plain : ∀ {g : Graph} {op : Operation} {operands : List ValueId} {s : Shape}, P g →
    Admits s → op.isPlain = true → P (g.push ⟨.op op operands, s⟩)
  push_reshape : ∀ {g : Graph} {a : ValueId} {s : Shape}, P g → Admits s → a < g.size →
    (Strict → (g.shape a).nonSingleton = s.nonSingleton) → P (g.push ⟨.op .reshape [a], s⟩)

theorem shape_push {g : Graph} {new : Value} {v : ValueId} (hv : v ≠ g.size) :
    (g.push new).shape v = g.shape v := by
  rcases Nat.lt_or_gt_of_ne hv with hLt | hGt
  · exact (Extends.push g new).shape_eq hLt
  · rw [shape, shape, get?_eq_none (Nat.le_of_lt hGt),
      get?_eq_none (by rw [size_push]; exact hGt)]

/-- **That numbers of entries fit a word is inherited**, for the values behind a point. -/
theorem inherited_countable (n : ValueId) :
    Inherited (fun g => ∀ v, n ≤ v → (g.shape v).Countable) Shape.Countable False := by
  have hPush : ∀ {g : Graph} {new : Value}, (∀ v, n ≤ v → (g.shape v).Countable) →
      new.shape.Countable → ∀ v, n ≤ v → ((g.push new).shape v).Countable := by
    intro g new h hNew v hv
    -- All values but the last one keep their shapes.
    by_cases hLast : v = g.size
    · rw [hLast, shape_of_get? (get?_push_size g new)]
      exact hNew
    · rw [shape_push hLast]
      exact h v hv
  exact ⟨Shape.countable_nil, Shape.Countable.of_le, fun h hs => hPush h hs,
    fun h => hPush h Shape.countable_nil, fun h hs _ => hPush h hs, fun h hs _ _ => hPush h hs⟩

/-- Only the values of the graph have to be looked at. -/
theorem countable_of_lt_size {g : Graph} (h : ∀ v < g.size, (g.shape v).Countable) (v : ValueId) :
    (g.shape v).Countable := by
  by_cases hv : v < g.size
  · exact h v hv
  · rw [shape, get?_eq_none (Nat.le_of_not_lt hv)]
    exact Shape.countable_nil

/-- The value is there and stretches to the shape. -/
def Within (g : Graph) (out : Shape) (v : ValueId) : Prop := v < g.size ∧ (g.shape v).Below out

/-- The value is there and has an admitted shape. -/
def Admitted (g : Graph) (Admits : Shape → Prop) (v : ValueId) : Prop :=
  v < g.size ∧ Admits (g.shape v)

variable {g g' : Graph} {s out : Shape} {v : ValueId} {P : Graph → Prop} {Admits : Shape → Prop}
  {Strict : Prop}

theorem Within.extend (h : g.Within out v) (hExtends : g.Extends g') : g'.Within out v := by
  refine ⟨Nat.lt_of_lt_of_le h.1 hExtends.size_le, ?_⟩
  rw [hExtends.shape_eq h.1]
  exact h.2

theorem HasShape.within (h : g.HasShape v s) (hBelow : s.Below out) : g.Within out v :=
  ⟨h.1, h.2 ▸ hBelow⟩

theorem HasShape.admitted (h : g.HasShape v s) (hs : Admits s) : g.Admitted Admits v :=
  ⟨h.1, h.2 ▸ hs⟩

theorem Inherited.admits_of_below (hP : Inherited P Admits Strict) (hs : Admits out)
    (h : s.Below out) : Admits s :=
  hP.admits_of_le hs (Shape.bulk_le_of_below h)

theorem Inherited.admits_without (hP : Inherited P Admits Strict) (hs : Admits s)
    (axes : List Nat) : Admits (s.without axes) :=
  hP.admits_of_le hs (s.bulk_without_le axes)

theorem Within.admitted (h : g.Within out v) (hP : Inherited P Admits Strict) (hs : Admits out) :
    g.Admitted Admits v :=
  ⟨h.1, hP.admits_of_below hs h.2⟩

end Graph

/-! ## Actions -/

namespace Recording

/-- However the action ends, a property that the graph has is handed down to the graph after it,
and then something holds of the result. -/
def Inherits {α : Type} (P : Graph → Prop) (m : Recording α) (r : Recorder)
    (Q : α → Recorder → Prop := fun _ _ => True) : Prop :=
  P r.graph → Ensures m r fun x r' => r.graph.Extends r'.graph ∧ P r'.graph ∧ Q x r'

variable {α β : Type} {P : Graph → Prop} {m : Recording α} {f : α → Recording β} {r : Recorder}
  {Q : α → Recorder → Prop} {R : β → Recorder → Prop}

theorem inherits_pure {x : α} (h : Q x r) : Inherits P (pure x) r Q :=
  fun hr => ⟨Graph.Extends.refl _, hr, h⟩

theorem Inherits.imp {Q' : α → Recorder → Prop} (h : Inherits P m r Q)
    (hImp : ∀ x r', Q x r' → Q' x r') : Inherits P m r Q' :=
  fun hr => (h hr).imp fun x r' ⟨hExtends, hr', hx⟩ => ⟨hExtends, hr', hImp x r' hx⟩

/-- That nothing holds of the result is no requirement. -/
theorem Inherits.only (h : Inherits P m r Q) : Inherits P m r := h.imp fun _ _ _ => trivial

/-- What is known of the action anyway holds of its result. -/
theorem Inherits.and {Q' : α → Recorder → Prop} (h : Inherits P m r Q) (hEnsures : Ensures m r Q') :
    Inherits P m r fun x r' => Q x r' ∧ Q' x r' := by
  intro hr
  obtain ⟨hExtends, hr', hx⟩ := h hr
  exact ⟨hExtends, hr', hx, hEnsures⟩

/-- One action after the other. -/
theorem Inherits.bind (h : Inherits P m r Q)
    (hNext : ∀ x r', r.graph.Extends r'.graph → Q x r' → Inherits P (f x) r' R) :
    Inherits P (m >>= f) r R := by
  intro hr
  apply Ensures.bind (h hr)
  rintro x r₁ ⟨hExtends, hr₁, hx⟩
  apply Ensures.imp (hNext x r₁ hExtends hx hr₁)
  rintro y r₂ ⟨hExtends', hr₂, hy⟩
  exact ⟨hExtends.trans hExtends', hr₂, hy⟩

theorem inherits_map {g : α → β} (h : Inherits P m r fun x r' => R (g x) r') :
    Inherits P (g <$> m) r R := h

theorem inherits_get_bind {f : Recorder → Recording β} (h : Inherits P (f r) r R) :
    Inherits P (get >>= f) r R := h

theorem inherits_shapeOf_bind {v : ValueId} {f : Shape → Recording β}
    (h : Inherits P (f (r.graph.shape v)) r R) : Inherits P (shapeOf v >>= f) r R := h

theorem inherits_literalOf?_bind {v : ValueId} {f : Option Float → Recording β}
    (h : Inherits P (f (r.graph.literal? v)) r R) : Inherits P (literalOf? v >>= f) r R := h

/-- A loop of actions that hand the property down. -/
theorem inherits_foldlM {σ : Type} {f : σ → α → Recording σ} {xs : List α} {s : σ}
    (Inv : σ → Recorder → Prop) (hStart : Inv s r)
    (hStep : ∀ x ∈ xs, ∀ s r', r.graph.Extends r'.graph → Inv s r' → Inherits P (f s x) r' Inv) :
    Inherits P (xs.foldlM f s) r Inv := by
  induction xs generalizing s r with
  | nil => exact inherits_pure hStart
  | cons x xs ih =>
    rw [List.foldlM_cons]
    apply (hStep x List.mem_cons_self s r (Graph.Extends.refl _) hStart).bind
    intro s' r' hExtends hInv
    exact ih hInv fun y hy s r'' hExtends' =>
      hStep y (List.mem_cons_of_mem x hy) s r'' (hExtends.trans hExtends')

theorem inherits_mapM {f : α → Recording β} (h : ∀ x r, Inherits P (f x) r) (xs : List α)
    (r : Recorder) : Inherits P (xs.mapM f) r := by
  induction xs generalizing r with
  | nil => exact inherits_pure trivial
  | cons x xs ih =>
    rw [List.mapM_cons]
    apply (h x r).bind
    intro y r₁ _ _
    exact (ih r₁).bind fun ys r₂ _ _ => inherits_pure trivial

/-- A value that may be added. -/
theorem inherits_add {new : Value} (hNew : P r.graph → P (r.graph.push new)) :
    Inherits P (add new) r fun v r' => r'.graph.HasShape v new.shape :=
  fun hr => ⟨Graph.Extends.push _ _, hNew hr, Graph.hasShape_of_get? (Graph.get?_push_size _ _)⟩

theorem inherits_tag (kind : DerivativeKind) (primal value : ValueId) :
    Inherits P (tag kind primal value) r := by
  intro hr
  apply Ensures.imp (ensures_tag kind primal value)
  rintro ⟨⟩ r' ⟨hExtends, hGraph⟩
  exact ⟨hExtends.graph, hGraph.symm ▸ hr, trivial⟩

section

variable {Admits : Shape → Prop} {Strict : Prop} (hP : Graph.Inherited P Admits Strict)

include hP

theorem inherits_literal (x : Float) :
    Inherits P (literal x) r fun v r' => r'.graph.HasShape v [] :=
  inherits_add hP.push_literal

/-- A failure is recorded with a number in place of a result. -/
theorem inherits_fail (e : RecordingError) :
    Inherits P (fail e) r fun v r' => r'.graph.HasShape v [] :=
  fun hr => @inherits_literal P { r with error := r.error.or (some e) } _ _ hP 0 hr

/-- A seed is an input of its primal's shape, and only its tag comes after it. -/
theorem inherits_derivativeInput (kind : DerivativeKind) {primal : ValueId}
    (hAdmits : Admits (r.graph.shape primal)) :
    Inherits P (derivativeInput kind primal) r := by
  unfold derivativeInput
  apply inherits_shapeOf_bind
  have hAdd : Inherits P (addArgument (r.graph.shape primal) none true) r := fun hr =>
    ⟨Graph.Extends.push _ _, hP.push_leaf hr hAdmits, trivial⟩
  exact hAdd.bind fun v r₁ _ _ => (inherits_tag kind primal v).bind fun _ r₂ _ _ =>
    inherits_pure trivial

/-- A derivative is handed out with its tag: the one that is known, or else the constant zero. -/
theorem inherits_knownOrZero (kind : DerivativeKind) (primal : ValueId) (known : Option ValueId) :
    Inherits P (do
      let w ←
        match known with
        | some w => pure w
        | none => literal 0
      tag kind primal w
      return w) r := by
  have hTagged : ∀ w r, Inherits P (do tag kind primal w; return w) r := fun w r =>
    (inherits_tag kind primal w).bind fun _ _ _ _ => inherits_pure trivial
  cases known with
  | some w => exact hTagged w r
  | none => exact (inherits_literal hP 0).bind fun w r₁ _ _ => hTagged w r₁

/-! ## Operations -/

variable {op : Operation} {operands : List ValueId} {a b : ValueId} {s out : Shape}

theorem inherits_pushShaped (hPlain : op.isPlain = true) (hs : Admits s) :
    Inherits P (pushShaped op operands s) r fun v r' => r'.graph.HasShape v s :=
  inherits_add fun hr => hP.push_plain hr hs hPlain

/-- An operation whose shape is known. -/
theorem inherits_push (hPlain : op.isPlain = true)
    (hShape : op.resultShape (operands.map r.graph.shape) = .ok s) (hs : Admits s) :
    Inherits P (push op operands) r fun v r' => r'.graph.HasShape v s := by
  unfold push
  apply inherits_get_bind
  simp only
  rw [hShape]
  exact inherits_pushShaped hP hPlain hs

/-- An operation that may fail. -/
theorem inherits_push_admitted (hPlain : op.isPlain = true)
    (hs : ∀ s, op.resultShape (operands.map r.graph.shape) = .ok s → Admits s) :
    Inherits P (push op operands) r fun v r' => r'.graph.Admitted Admits v := by
  cases hShape : op.resultShape (operands.map r.graph.shape) with
  | ok s =>
    exact (inherits_push hP hPlain hShape (hs s hShape)).imp fun _ _ h => h.admitted (hs s hShape)
  | error e =>
    -- A number takes the place of the result.
    unfold push
    apply inherits_get_bind
    simp only
    rw [hShape]
    exact (inherits_fail hP _).imp fun _ _ h => h.admitted hP.admits_nil

theorem inherits_stretch (hs : Admits out) : Inherits P (stretch a s out) r := by
  unfold stretch
  apply inherits_literalOf?_bind
  split
  · exact inherits_pure trivial
  · exact (inherits_pushShaped hP rfl hs).only

/-- **Everything that an elementwise operation records stretches to the shape** that its operands
stretch to. -/
theorem inherits_elementwise (hs : Admits out) (hPlain : op.isPlain = true)
    (ha : r.graph.Within out a) (hb : r.graph.Within out b) :
    Inherits P (elementwise op a b) r fun v r' => r'.graph.Within out v ∧
      (r.graph.shape a).broadcast (r.graph.shape b) = .ok (r'.graph.shape v) := by
  -- Both operands are stretched to their common shape, which is not larger than the one given.
  obtain ⟨c, hCommon, hBelow⟩ := Shape.exists_broadcast ha.2 hb.2
  have hc := hP.admits_of_below hs hBelow
  unfold elementwise
  apply inherits_shapeOf_bind
  apply inherits_shapeOf_bind
  rw [hCommon]
  apply (inherits_stretch hP hc).bind
  intro a' r₁ _ _
  apply (inherits_stretch hP hc).bind
  intro b' r₂ _ _
  apply (inherits_pushShaped hP hPlain hc).imp
  intro v r₃ hv
  exact ⟨hv.within hBelow, congrArg _ hv.2.symm⟩

theorem inherits_arith (hs : Admits out) (op : Arith) (ha : r.graph.Within out a)
    (hb : r.graph.Within out b) :
    Inherits P (arith op a b) r fun v r' => r'.graph.Within out v :=
  (inherits_elementwise hP hs rfl ha hb).imp fun _ _ h => h.1

/-- An operation that keeps the shape of its operand. -/
theorem inherits_push_same (hs : Admits out) (hPlain : op.isPlain = true)
    (hShape : ∀ s, op.resultShape [s] = .ok s) (ha : r.graph.Within out a) :
    Inherits P (push op [a]) r fun v r' => r'.graph.Within out v := by
  have hAdmits := hP.admits_of_below hs ha.2
  have hResult : op.resultShape ([a].map r.graph.shape) = .ok (r.graph.shape a) := hShape _
  apply (inherits_push hP hPlain hResult hAdmits).imp
  exact fun v r' h => h.within ha.2

theorem inherits_neg (hs : Admits out) (ha : r.graph.Within out a) :
    Inherits P (neg a) r fun v r' => r'.graph.Within out v :=
  inherits_push_same hP hs rfl (fun _ => rfl) ha

theorem inherits_call (hs : Admits out) (f : NamedFunction) (ha : r.graph.Within out a) :
    Inherits P (call f a) r fun v r' => r'.graph.Within out v :=
  inherits_push_same hP hs rfl (fun _ => rfl) ha

theorem inherits_arithRight (hs : Admits out) (op : Arith) (x : Float)
    (ha : r.graph.Within out a) :
    Inherits P (arithRight op a x) r fun v r' => r'.graph.Within out v := by
  apply (inherits_literal hP x).bind
  intro c r₁ hExtends hc
  exact inherits_arith hP hs op (ha.extend hExtends) (hc.within (Shape.Below.nil out))

theorem inherits_arithLeft (hs : Admits out) (op : Arith) (x : Float)
    (ha : r.graph.Within out a) :
    Inherits P (arithLeft op x a) r fun v r' => r'.graph.Within out v := by
  apply (inherits_literal hP x).bind
  intro c r₁ hExtends hc
  exact inherits_arith hP hs op (hc.within (Shape.Below.nil out)) (ha.extend hExtends)

theorem inherits_positive (hs : Admits out) (ha : r.graph.Within out a) :
    Inherits P (positive a) r fun v r' => r'.graph.Within out v := by
  apply (inherits_literal hP 0).bind
  intro c r₁ hExtends hc
  exact (inherits_elementwise hP hs rfl (ha.extend hExtends)
    (hc.within (Shape.Below.nil out))).imp fun _ _ h => h.1

theorem inherits_powerSlope (hs : Admits out) (ha : r.graph.Within out a)
    (hb : r.graph.Within out b) :
    Inherits P (powerSlope a b) r fun v r' => r'.graph.Within out v := by
  unfold powerSlope
  apply inherits_literalOf?_bind
  cases r.graph.literal? b with
  | some c =>
    simp only
    split
    · exact inherits_arithLeft hP hs .mul c ha
    · apply (inherits_arithRight hP hs .pow (c - 1) ha).bind
      intro power r₁ _ hPower
      exact inherits_arithLeft hP hs .mul c hPower
  | none =>
    apply (inherits_arithRight hP hs .sub 1 hb).bind
    intro exponent r₁ hExtends₁ hExponent
    apply (inherits_arith hP hs .pow (ha.extend hExtends₁) hExponent).bind
    intro power r₂ hExtends₂ hPower
    exact inherits_arith hP hs .mul (hb.extend (hExtends₁.trans hExtends₂)) hPower

theorem inherits_reshape (hs : Admits s) (ha : a < r.graph.size)
    (hSame : Strict → (r.graph.shape a).nonSingleton = s.nonSingleton) :
    Inherits P (reshape a s) r fun v r' => r'.graph.Admitted Admits v := by
  unfold reshape
  apply inherits_shapeOf_bind
  cases (r.graph.shape a).checkReshape s with
  | ok _ =>
    exact (inherits_add fun hr => hP.push_reshape hr hs ha hSame).imp fun _ _ h => h.admitted hs
  | error e => exact (inherits_fail hP _).imp fun _ _ h => h.admitted hP.admits_nil

theorem inherits_broadcastTo (hs : Admits s) : Inherits P (broadcastTo a s) r := by
  unfold broadcastTo
  apply inherits_shapeOf_bind
  split
  · exact (inherits_fail hP _).only
  · simp only
    cases (r.graph.shape a).checkBroadcast (trailingDims (r.graph.shape a).rank s.rank) s with
    | ok _ => exact (inherits_pushShaped hP rfl hs).only
    | error e => exact (inherits_fail hP _).only

theorem inherits_transpose (ha : r.graph.Admitted Admits a) (permutation : List Nat) :
    Inherits P (transpose a permutation) r fun v r' => r'.graph.Admitted Admits v := by
  apply inherits_push_admitted hP rfl
  intro s hShape
  obtain ⟨⟨hLength, hLt, hNodup⟩, rfl⟩ := transposeShape_eq_ok.mp hShape
  exact hP.admits_of_le ha.2 (Shape.bulk_map_extent ⟨hLength ▸ hLt, hNodup⟩ hLength).le

end

end Recording

/-! ## Actions that may find no rule -/

namespace Differentiating

open Recording

/-- The same for an action that may find no rule: the property is handed down also where it ends
with an error. -/
def HandsDown {α : Type} (P : Graph → Prop) (m : Differentiating α) (r : Recorder)
    (Q : α → Recorder → Prop := fun _ _ => True) : Prop :=
  P r.graph → P (m.run r).2.graph ∧ ∀ x r', m.run r = (.ok x, r') → Q x r'

variable {α β : Type} {P : Graph → Prop} {m : Differentiating α} {f : α → Differentiating β}
  {r : Recorder} {Q : α → Recorder → Prop} {R : β → Recorder → Prop}

theorem handsDown_pure {x : α} (h : Q x r) : HandsDown P (pure x) r Q := by
  refine fun hr => ⟨hr, ?_⟩
  rintro x' r' hRun
  obtain ⟨hx, rfl⟩ := Prod.mk.inj hRun
  exact Except.ok.inj hx ▸ h

theorem handsDown_throw (e : DerivativeError) :
    HandsDown P (throw e : Differentiating α) r Q := by
  refine fun hr => ⟨hr, ?_⟩
  intro x r' hRun
  have hError : (Except.error e : Except DerivativeError α) = .ok x := congrArg Prod.fst hRun
  exact absurd hError (by simp)

theorem HandsDown.imp {Q' : α → Recorder → Prop} (h : HandsDown P m r Q)
    (hImp : ∀ x r', Q x r' → Q' x r') : HandsDown P m r Q' :=
  fun hr => ⟨(h hr).1, fun x r' hRun => hImp x r' ((h hr).2 x r' hRun)⟩

/-- Recording alone finds all its rules. -/
theorem handsDown_lift {m : Recording α} (h : Recording.Inherits P m r Q) :
    HandsDown P (liftM m) r Q := by
  intro hr
  obtain ⟨-, hr', hx⟩ := h hr
  refine ⟨hr', ?_⟩
  rintro x r' hRun
  exact of_run_lift hRun hx

theorem HandsDown.bind (h : HandsDown P m r Q) (hNext : ∀ x r', Q x r' → HandsDown P (f x) r' R) :
    HandsDown P (m >>= f) r R := by
  intro hr
  obtain ⟨hr₁, hQ⟩ := h hr
  unfold HandsDown at hNext
  rw [run_bind]
  cases hRun : m.run r with
  | mk result r₁ =>
    rw [hRun] at hr₁
    cases result with
    -- After an error nothing more is recorded.
    | error e => exact ⟨hr₁, fun _ _ hEq => absurd (congrArg Prod.fst hEq) (by simp)⟩
    | ok x => exact hNext x r₁ (hQ x r₁ hRun) hr₁

/-- What is known of every run that ends without an error holds of the result. -/
theorem HandsDown.and {Q' : α → Recorder → Prop} (h : HandsDown P m r Q)
    (hRun : ∀ x r', m.run r = (.ok x, r') → Q' x r') :
    HandsDown P m r fun x r' => Q x r' ∧ Q' x r' :=
  fun hr => ⟨(h hr).1, fun x r' hEnd => ⟨(h hr).2 x r' hEnd, hRun x r' hEnd⟩⟩

theorem handsDown_foldlM {σ : Type} {f : σ → α → Differentiating σ} {xs : List α} {s : σ}
    (Inv : σ → Recorder → Prop) (hStart : Inv s r)
    (hStep : ∀ s x r, Inv s r → HandsDown P (f s x) r Inv) :
    HandsDown P (xs.foldlM f s) r Inv := by
  induction xs generalizing s r with
  | nil => exact handsDown_pure hStart
  | cons x xs ih =>
    rw [List.foldlM_cons]
    exact (hStep s x r hStart).bind fun s' r' hInv => ih hInv

end Differentiating

/-! ## Undoing a stretch -/

namespace Reverse

open Recording

variable {P : Graph → Prop} {Admits : Shape → Prop} {Strict : Prop} {r : Recorder}
  {v ct : ValueId} {s target : Shape} {dims : List Nat}

section

variable (hP : Graph.Inherited P Admits Strict)

include hP

theorem inherits_sumOver (hv : r.graph.Admitted Admits v) (axes : List Nat) :
    Inherits P (sumOver v axes) r fun w r' => r'.graph.Admitted Admits w := by
  unfold sumOver
  split
  · exact inherits_pure hv
  · apply inherits_push_admitted hP rfl
    intro s hShape
    obtain ⟨-, rfl⟩ := sumShape_eq_ok.mp hShape
    exact hP.admits_without hv.2 axes

end

/-- The sum over the stretched axes has the shape without them. -/
theorem hasShape_sumOver (s : Shape) (dims : List Nat) (hv : r.graph.HasShape v target) :
    Ensures (sumOver v (stretchedAxes s dims target)) r fun w r' =>
      r'.graph.HasShape w (target.without (stretchedAxes s dims target)) := by
  obtain ⟨hLt, rfl⟩ := hv
  have hAxes : ∀ a ∈ stretchedAxes s dims (r.graph.shape v), a < (r.graph.shape v).rank :=
    fun a ha => List.mem_range.mp (List.mem_of_mem_filter ha)
  have hNodup : (stretchedAxes s dims (r.graph.shape v)).Nodup := List.nodup_range.filter _
  apply Ensures.imp (ensures_sumOver hAxes hNodup (Graph.fills_self plainReading 0 hLt))
  rintro w r' ⟨-, hFills⟩
  exact ⟨hFills.lt, hFills.shape⟩

/-- The value may be brought to the shape of an operand: it has the shape that the operand is
stretched to, or is a number. -/
def Reducible (s : Shape) (g : Graph) (v : ValueId) : Prop :=
  s.Below (g.shape v) ∨ g.shape v = []

/-- What is left once the surplus axes are summed over differs from the target in axes of extent
one only, if it has as many entries. -/
private theorem nonSingleton_of_reducible (hv : v < r.graph.size) (h : Reducible s r.graph v) :
    Ensures (sumOver v (surplusAxes (r.graph.shape v) s)) r fun w r' =>
      (r'.graph.shape w).size = s.size →
        (r'.graph.shape w).nonSingleton = s.nonSingleton := by
  rcases h with hBelow | hNil
  · rw [surplusAxes_eq hBelow]
    apply (hasShape_sumOver s (trailingDims s.rank (r.graph.shape v).rank) ⟨hv, rfl⟩).imp
    rintro w r' ⟨-, hShape⟩ -
    rw [hShape, nonSingleton_without hBelow.stretches]
  · -- A number has no axis to be summed over.
    have hNone : surplusAxes (r.graph.shape v) s = [] := by
      rw [hNil]
      simp [surplusAxes, Shape.rank]
    have hSummed : sumOver v (surplusAxes (r.graph.shape v) s) = pure v := by
      rw [hNone]
      rfl
    rw [hSummed]
    apply ensures_pure
    intro hSize
    rw [hNil] at hSize ⊢
    rw [Shape.nonSingleton_of_size_eq_one hSize.symm]
    rfl

section

variable (hP : Graph.Inherited P Admits Strict)

include hP

/-- The contribution of a broadcast brings back axes of extent one. -/
theorem inherits_broadcastContribution (h : s.Stretches dims target) (hs : Admits s)
    (hTarget : Admits target) (hCt : r.graph.HasShape ct target) :
    Inherits P (broadcastContribution s dims target ct) r fun v r' =>
      r'.graph.Admitted Admits v := by
  unfold broadcastContribution
  apply ((inherits_sumOver hP (hCt.admitted hTarget) _).and (hasShape_sumOver s dims hCt)).bind
  rintro summed r₁ - ⟨hSummed, hLt, hShape⟩
  apply inherits_shapeOf_bind
  split
  · exact inherits_pure hSummed
  · apply inherits_reshape hP hs hLt
    intro _
    rw [hShape, nonSingleton_without h]

/-- **Undoing a stretch hands properties down.** -/
theorem inherits_unbroadcast (hs : Admits s) (hv : r.graph.Admitted Admits v)
    (hStrict : Strict → Reducible s r.graph v) : Inherits P (unbroadcast v s) r := by
  have hSummed : Inherits P (sumOver v (surplusAxes (r.graph.shape v) s)) r fun w r' =>
      w < r'.graph.size ∧ (Strict → (r'.graph.shape w).size = s.size →
        (r'.graph.shape w).nonSingleton = s.nonSingleton) := by
    intro hr
    obtain ⟨hExtends, hr', hw⟩ := inherits_sumOver hP hv (surplusAxes (r.graph.shape v) s) hr
    exact ⟨hExtends, hr', hw.1, fun h => nonSingleton_of_reducible hv.1 (hStrict h)⟩
  unfold unbroadcast
  apply inherits_shapeOf_bind
  split
  · exact inherits_pure trivial
  · apply hSummed.bind
    rintro summed r₁ - ⟨hLt, hSame⟩
    apply inherits_shapeOf_bind
    split
    · exact inherits_pure trivial
    · split
      · -- What is left is reshaped only if it has as many entries as the target.
        rename_i hSize
        exact (inherits_reshape hP hs hLt fun h => hSame h hSize).only
      · exact inherits_broadcastTo hP hs

end

end Reverse

end ArrayEquations

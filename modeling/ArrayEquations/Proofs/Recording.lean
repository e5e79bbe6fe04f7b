import ArrayEquations.Derivative
import ArrayEquations.Proofs.WellFormed

/-!
# ArrayEquations — what recorded operations compute

Recording adds values to a graph and changes none of those before. So each action has a
rule: from what its operands compute, what its result computes in the graph afterwards.
The rules compose along the steps of an action.

Most rules speak of an array that stretches to a shape. The array itself may be smaller:
a constant stays a scalar among arrays.

## Main definitions

* `Recording.Ensures` — what holds after an action.
* `Recorder.Extends` — a recorder that has recorded more.
* `Graph.HasShape` — a value of a shape.
* `Graph.Spreads` — a value computes given entries once it is stretched to a shape.
* `Differentiating.Yields`, `Differentiating.Throws` — the two ways in which a
  differentiation ends.

## Main results

* `Recording.ensures_elementwise` — an elementwise operation, for any operands that
  stretch to one shape.
* `Recording.ensures_push`, `Recording.ensures_reshape`, … — the other operations.
-/

namespace ArrayEquations

/-! ## More recorded values -/

/-- The second recorder has recorded more than the first: more values and more inputs, but no
failure and no name. -/
structure Recorder.Extends (r r' : Recorder) (added : List Argument := []) : Prop where
  graph : r.graph.Extends r'.graph
  wellFormed : r.graph.WellFormed → r'.graph.WellFormed
  error : r'.error = r.error
  bindings : r'.bindings = r.bindings
  arguments : r'.arguments = r.arguments ++ added

namespace Recorder.Extends

theorem refl (r : Recorder) : r.Extends r :=
  ⟨Graph.Extends.refl _, id, rfl, rfl, (List.append_nil _).symm⟩

theorem trans {r₁ r₂ r₃ : Recorder} {added₁ added₂ : List Argument}
    (h₁ : r₁.Extends r₂ added₁) (h₂ : r₂.Extends r₃ added₂) :
    r₁.Extends r₃ (added₁ ++ added₂) := by
  refine ⟨h₁.graph.trans h₂.graph, fun h => h₂.wellFormed (h₁.wellFormed h),
    h₂.error.trans h₁.error, h₂.bindings.trans h₁.bindings, ?_⟩
  rw [h₂.arguments, h₁.arguments, List.append_assoc]

end Recorder.Extends

/-- A recording is closed when no failure was recorded and its outputs are values of it. The
trace has the outputs given, and all else from the recorder. -/
theorem Recorder.finish_eq_ok {r : Recorder} {name : String} {outputs : List ValueId} {t : Trace}
    (h : r.finish name outputs = .ok t) :
    r.error = none ∧ outputs ≠ [] ∧ (∀ o ∈ outputs, o < r.graph.size) ∧
      t = ⟨name, r.graph, r.arguments, r.bindings, r.tags, outputs⟩ := by
  unfold finish at h
  split at h
  · exact absurd h (by simp)
  · rename_i hError
    split at h
    · exact absurd h (by simp)
    · rename_i hNonempty
      split at h
      · exact absurd h (by simp)
      · rename_i hFind
        refine ⟨hError, by simpa using hNonempty, ?_, (Except.ok.inj h).symm⟩
        intro o ho
        simpa [Graph.has] using List.find?_eq_none.mp hFind o ho

/-- The seeds are new inputs, one of each primal's shape. -/
structure Graph.Seeds (g g' : Graph) (primals seeds : List ValueId) : Prop where
  length_eq : seeds.length = primals.length
  nodup : seeds.Nodup
  fresh : ∀ s ∈ seeds, g.size ≤ s
  leaf : ∀ x ∈ primals.zip seeds, g'.get? x.2 = some ⟨.leaf, g.shape x.1⟩

namespace Graph.Seeds

variable {g g' g'' : Graph} {primals seeds : List ValueId}

theorem nil (g g' : Graph) : g.Seeds g' [] [] :=
  ⟨rfl, List.nodup_nil, by simp, by simp⟩

theorem extend (h : g.Seeds g' primals seeds) (hExtends : g'.Extends g'') :
    g.Seeds g'' primals seeds :=
  ⟨h.length_eq, h.nodup, h.fresh, fun x hx => hExtends.get?_of_some (h.leaf x hx)⟩

theorem paired (h : g.Seeds g' primals seeds) :
    List.Forall₂ (fun primal seed => (primal, seed) ∈ primals.zip seeds) primals seeds :=
  List.forall₂_iff_zip.mpr ⟨h.length_eq.symm, fun hMem => hMem⟩

theorem lt_size (h : g.Seeds g' primals seeds) {s : ValueId} (hs : s ∈ seeds) :
    s < g'.size := by
  obtain ⟨primal, -, hZip⟩ := exists_beside_of_forall₂ h.paired hs
  exact lt_size_of_get? (h.leaf _ hZip)

/-- Every primal has a seed. -/
theorem exists_seed (h : g.Seeds g' primals seeds) {primal : ValueId} (hMem : primal ∈ primals) :
    ∃ s, (primal, s) ∈ primals.zip seeds := by
  obtain ⟨s, -, hZip⟩ := exists_beside_of_forall₂ (List.Forall₂.flip h.paired) hMem
  exact ⟨s, hZip⟩

/-- One more seed, in a graph with one more value. -/
theorem push (h : g.Seeds g' primals seeds) (hExtends : g.Extends g')
    (hExtends' : g'.Extends g'') {primal seed : ValueId} (hSeed : seed = g'.size)
    (hLeaf : g''.get? seed = some ⟨.leaf, g.shape primal⟩) :
    g.Seeds g'' (primals ++ [primal]) (seeds ++ [seed]) := by
  refine ⟨by simp [h.length_eq], ?_, ?_, ?_⟩
  · rw [List.nodup_append]
    refine ⟨h.nodup, List.nodup_singleton _, ?_⟩
    rintro a ha b hb rfl
    -- The new seed is the last value, behind all seeds of before.
    have hLt := h.lt_size ha
    rw [List.mem_singleton.mp hb, hSeed] at hLt
    exact absurd hLt (Nat.lt_irrefl _)
  · intro s hs
    rcases List.mem_append.mp hs with hs | hs
    · exact h.fresh s hs
    · rw [List.mem_singleton.mp hs, hSeed]
      exact hExtends.size_le
  · intro x hx
    rw [List.zip_append h.length_eq.symm] at hx
    rcases List.mem_append.mp hx with hx | hx
    · exact hExtends'.get?_of_some (h.leaf x hx)
    · obtain rfl : x = (primal, seed) := by simpa using hx
      exact hLeaf

end Graph.Seeds

/-- The value is there and has the shape. -/
def Graph.HasShape (g : Graph) (v : ValueId) (s : Shape) : Prop := v < g.size ∧ g.shape v = s

theorem Graph.HasShape.extend {g g' : Graph} {v : ValueId} {s : Shape} (h : g.HasShape v s)
    (hExtends : g.Extends g') : g'.HasShape v s :=
  ⟨Nat.lt_of_lt_of_le h.1 hExtends.size_le, (hExtends.shape_eq h.1).trans h.2⟩

theorem Graph.hasShape_of_get? {g : Graph} {v : ValueId} {value : Value}
    (h : g.get? v = some value) : g.HasShape v value.shape :=
  ⟨lt_size_of_get? h, shape_of_get? h⟩

/-! ## What values compute -/

namespace Graph

variable {R : Type*} [CommRing R]

/-- The value stretches to `out`, and its entries there are given. -/
structure Spreads (I : Interpretation R) (inputs : ValueId → Position → R) (g : Graph)
    (out : Shape) (v : ValueId) (entries : Position → R) : Prop where
  lt : v < g.size
  below : (g.shape v).Below out
  aligned : ∀ p ∈ out.box, (g.tensor I inputs v).aligned p = entries p

/-- The value has the shape, and its entries are given. -/
structure Fills (I : Interpretation R) (inputs : ValueId → Position → R) (g : Graph)
    (out : Shape) (v : ValueId) (entries : Position → R) : Prop where
  lt : v < g.size
  shape : g.shape v = out
  entry : ∀ p ∈ out.box, g.entry I inputs v p = entries p

variable {I : Interpretation R} {inputs : ValueId → Position → R} {g g' : Graph}
  {out : Shape} {v : ValueId} {entries entries' : Position → R}

theorem tensor_eq_of_extends (h : g.Extends g') (hv : v < g.size) :
    g'.tensor I inputs v = g.tensor I inputs v := by
  rw [tensor, tensor, h.shape_eq hv, h.entry_eq hv]

theorem spreads_self (I : Interpretation R) (inputs : ValueId → Position → R) (hv : v < g.size)
    (hBelow : (g.shape v).Below out) :
    g.Spreads I inputs out v (g.tensor I inputs v).aligned :=
  ⟨hv, hBelow, fun _ _ => rfl⟩

theorem fills_self (I : Interpretation R) (inputs : ValueId → Position → R) (hv : v < g.size) :
    g.Fills I inputs (g.shape v) v (g.entry I inputs v) :=
  ⟨hv, rfl, fun _ _ => rfl⟩

theorem HasShape.fills {s : Shape} (h : g.HasShape v s) :
    g.Fills I inputs s v (g.entry I inputs v) :=
  h.2 ▸ fills_self I inputs h.1

/-- Stretching to a shape in between changes no entry. -/
theorem aligned_align {c : Shape} (hv : (g.shape v).Below c) (hc : c.Below out) {p : Position}
    (hp : p ∈ out.box) :
    (g.tensor I inputs v).aligned (c.align p) = (g.tensor I inputs v).aligned p := by
  rw [Tensor.aligned, Tensor.aligned, tensor, Shape.align_align hv hc hp]

namespace Spreads

theorem extend (h : g.Spreads I inputs out v entries) (hExtends : g.Extends g') :
    g'.Spreads I inputs out v entries := by
  refine ⟨Nat.lt_of_lt_of_le h.lt hExtends.size_le, ?_, ?_⟩
  · rw [hExtends.shape_eq h.lt]
    exact h.below
  · rw [tensor_eq_of_extends hExtends h.lt]
    exact h.aligned

theorem congr (h : g.Spreads I inputs out v entries)
    (hEq : ∀ p ∈ out.box, entries p = entries' p) : g.Spreads I inputs out v entries' :=
  ⟨h.lt, h.below, fun p hp => (h.aligned p hp).trans (hEq p hp)⟩

/-- A value that is not smaller is not stretched. -/
theorem fills (h : g.Spreads I inputs out v entries) (hShape : g.shape v = out) :
    g.Fills I inputs out v entries := by
  refine ⟨h.lt, hShape, ?_⟩
  intro p hp
  rw [← h.aligned p hp, Tensor.aligned, tensor, hShape, Shape.align_self hp]

end Spreads

namespace Fills

theorem extend (h : g.Fills I inputs out v entries) (hExtends : g.Extends g') :
    g'.Fills I inputs out v entries := by
  refine ⟨Nat.lt_of_lt_of_le h.lt hExtends.size_le, ?_, ?_⟩
  · rw [hExtends.shape_eq h.lt, h.shape]
  · rw [hExtends.entry_eq h.lt]
    exact h.entry

theorem congr (h : g.Fills I inputs out v entries)
    (hEq : ∀ p ∈ out.box, entries p = entries' p) : g.Fills I inputs out v entries' :=
  ⟨h.lt, h.shape, fun p hp => (h.entry p hp).trans (hEq p hp)⟩

theorem spreads (h : g.Fills I inputs out v entries) : g.Spreads I inputs out v entries := by
  refine ⟨h.lt, h.shape ▸ Shape.Below.refl _, ?_⟩
  intro p hp
  rw [← h.entry p hp, Tensor.aligned, tensor, h.shape, Shape.align_self hp]

end Fills

end Graph

/-! ## Actions -/

namespace Recording

variable {α β : Type}

/-- What holds of the result of an action and of the recorder after it. -/
def Ensures (m : Recording α) (r : Recorder) (Q : α → Recorder → Prop) : Prop :=
  Q (m r).1 (m r).2

variable {m : Recording α} {f : α → Recording β} {r : Recorder} {P : α → Recorder → Prop}
  {Q : β → Recorder → Prop}

theorem Ensures.imp {Q : α → Recorder → Prop} (h : Ensures m r P)
    (hImp : ∀ a r', P a r' → Q a r') : Ensures m r Q :=
  hImp _ _ h

/-- One action after the other. -/
theorem Ensures.bind (h : Ensures m r P) (hNext : ∀ a r', P a r' → Ensures (f a) r' Q) :
    Ensures (m >>= f) r Q :=
  hNext _ _ h

/-- What follows from the result of an action that only adds to the recording. -/
theorem Ensures.imp_extends {Q : α → Recorder → Prop}
    (h : Ensures m r fun a r' => r.Extends r' ∧ P a r')
    (hImp : ∀ a r', r.Extends r' → P a r' → Q a r') :
    Ensures m r fun a r' => r.Extends r' ∧ Q a r' :=
  h.imp fun a r' ha => ⟨ha.1, hImp a r' ha.1 ha.2⟩

/-- One action after the other, where both only add to the recording. -/
theorem Ensures.bind_extends (h : Ensures m r fun a r' => r.Extends r' ∧ P a r')
    (hNext : ∀ a r', r.Extends r' → P a r' →
      Ensures (f a) r' fun b r'' => r'.Extends r'' ∧ Q b r'') :
    Ensures (m >>= f) r fun b r'' => r.Extends r'' ∧ Q b r'' :=
  h.bind fun a r' ha => (hNext a r' ha.1 ha.2).imp fun _ _ hb => ⟨ha.1.trans hb.1, hb.2⟩

theorem ensures_pure {a : α} (h : P a r) : Ensures (pure a) r P := h

theorem ensures_map {g : α → β} (h : Ensures m r fun a r' => Q (g a) r') :
    Ensures (g <$> m) r Q := h

theorem ensures_get_bind {f : Recorder → Recording β} (h : Ensures (f r) r Q) :
    Ensures (get >>= f) r Q := h

/-- Reading a shape changes nothing. -/
theorem ensures_shapeOf_bind {v : ValueId} {f : Shape → Recording β}
    (h : Ensures (f (r.graph.shape v)) r Q) : Ensures (shapeOf v >>= f) r Q := h

theorem ensures_literalOf?_bind {v : ValueId} {f : Option Float → Recording β}
    (h : Ensures (f (r.graph.literal? v)) r Q) : Ensures (literalOf? v >>= f) r Q := h

/-- A loop keeps what each of its steps keeps. -/
theorem Ensures.foldlM {σ : Type} {f : σ → α → Recording σ} {as : List α}
    (Inv : List α → σ → Recorder → Prop) {s : σ} (hStart : Inv [] s r)
    (hStep : ∀ before a after s r, as = before ++ a :: after → Inv before s r →
      Ensures (f s a) r (Inv (before ++ [a]))) :
    Ensures (as.foldlM f s) r (Inv as) := by
  suffices h : ∀ after before s r, as = before ++ after → Inv before s r →
      Ensures (after.foldlM f s) r (Inv as) from h as [] s r rfl hStart
  intro after
  induction after with
  | nil =>
    intro before s r hSplit hInv
    rw [List.append_nil] at hSplit
    exact hSplit ▸ hInv
  | cons a after ih =>
    intro before s r hSplit hInv
    rw [List.foldlM_cons]
    apply Ensures.bind (hStep before a after s r hSplit hInv)
    intro s' r' hInv'
    exact ih (before ++ [a]) s' r' (by rw [hSplit, List.append_assoc]; rfl) hInv'

/-- The same for a loop that collects results. -/
theorem Ensures.mapM {f : α → Recording β} {as : List α}
    (Inv : List α → List β → Recorder → Prop) (hStart : Inv [] [] r)
    (hStep : ∀ before a after bs r, as = before ++ a :: after → Inv before bs r →
      Ensures (f a) r fun b r' => Inv (before ++ [a]) (bs ++ [b]) r') :
    Ensures (as.mapM f) r (Inv as) := by
  -- The induction is on what is left, with the results so far in front of those to come.
  suffices h : ∀ after before bs r, as = before ++ after → Inv before bs r →
      Ensures (after.mapM f) r fun cs r' => Inv as (bs ++ cs) r' from h as [] [] r rfl hStart
  intro after
  induction after with
  | nil =>
    intro before bs r hSplit hInv
    rw [List.append_nil] at hSplit
    rw [List.mapM_nil]
    apply ensures_pure
    rw [List.append_nil]
    exact hSplit ▸ hInv
  | cons a after ih =>
    intro before bs r hSplit hInv
    rw [List.mapM_cons]
    apply Ensures.bind (hStep before a after bs r hSplit hInv)
    intro b r' hInv'
    apply Ensures.bind (ih (before ++ [a]) (bs ++ [b]) r'
      (by rw [hSplit, List.append_assoc]; rfl) hInv')
    intro cs r'' hInv''
    apply ensures_pure
    rwa [List.append_assoc] at hInv''

/-- A loop that records something for each item. What holds of an item and its result goes on to
hold, because recording more changes no value. -/
theorem ensures_mapM_forall₂ {f : α → Recording β} {as : List α} {R : Graph → α → β → Prop}
    (hExtend : ∀ {g g' : Graph} {a : α} {b : β}, R g a b → g.Extends g' → R g' a b)
    (hStep : ∀ a ∈ as, ∀ r', r.Extends r' →
      Ensures (f a) r' fun b r'' => r'.Extends r'' ∧ R r''.graph a b) :
    Ensures (as.mapM f) r fun bs r' => r.Extends r' ∧ List.Forall₂ (R r'.graph) as bs := by
  apply Ensures.mapM fun before bs r' => r.Extends r' ∧ List.Forall₂ (R r'.graph) before bs
  · exact ⟨Recorder.Extends.refl r, .nil⟩
  · rintro before a after bs r₁ hSplit ⟨hExtends, hBefore⟩
    apply Ensures.imp (hStep a (by rw [hSplit]; simp) r₁ hExtends)
    rintro b r₂ ⟨hExtends', hOne⟩
    refine ⟨hExtends.trans hExtends', List.rel_append ?_ (.cons hOne .nil)⟩
    exact hBefore.imp fun _ _ hOld => hExtend hOld hExtends'.graph

/-- Annotations change no value. -/
theorem ensures_tag (kind : DerivativeKind) (primal value : ValueId) :
    Ensures (tag kind primal value) r fun _ r' => r.Extends r' ∧ r'.graph = r.graph := by
  unfold Ensures tag
  show r.Extends (if _ then _ else _) ∧ Recorder.graph (if _ then _ else _) = _
  split
  · exact ⟨Recorder.Extends.refl r, rfl⟩
  · exact ⟨⟨Graph.Extends.refl _, id, rfl, rfl, (List.append_nil _).symm⟩, rfl⟩

theorem ensures_add {value : Value} (h : r.graph.Accepts value) :
    Ensures (add value) r fun v r' =>
      r.Extends r' ∧ v = r.graph.size ∧ r'.graph.get? v = some value :=
  ⟨⟨Graph.Extends.push _ _, fun hg => hg.push h, rfl, rfl, (List.append_nil _).symm⟩, rfl,
    Graph.get?_push_size _ _⟩

theorem ensures_literal (x : Float) :
    Ensures (literal x) r fun v r' =>
      r.Extends r' ∧ v = r.graph.size ∧ r'.graph.get? v = some ⟨.literal x, []⟩ :=
  ensures_add rfl

/-- A derivative input is a new argument of its primal's shape. -/
theorem ensures_derivativeInput (kind : DerivativeKind) (primal : ValueId) :
    Ensures (derivativeInput kind primal) r fun v r' =>
      r.Extends r' [⟨v, none, true⟩] ∧ v = r.graph.size ∧
        r'.graph.get? v = some ⟨.leaf, r.graph.shape primal⟩ := by
  let leaf : Value := ⟨.leaf, r.graph.shape primal⟩
  let r₁ : Recorder := ⟨r.graph.push leaf, r.arguments ++ [⟨r.graph.size, none, true⟩], r.bindings,
    r.tags, r.error⟩
  have hAdded : r.Extends r₁ [⟨r.graph.size, none, true⟩] :=
    ⟨Graph.Extends.push _ _, fun hg => hg.push (show r.graph.Accepts leaf from trivial), rfl, rfl,
      rfl⟩
  have hRun : derivativeInput kind primal r =
      (r.graph.size, (tag kind primal r.graph.size r₁).2) := rfl
  obtain ⟨hTag, hGraph⟩ := @ensures_tag r₁ kind primal r.graph.size
  unfold Ensures
  rw [hRun]
  refine ⟨by simpa using hAdded.trans hTag, rfl, ?_⟩
  show Graph.get? (Recorder.graph _) _ = _
  rw [hGraph]
  exact Graph.get?_push_size _ _

/-- A derivative is handed out with its tag: the one that is known, or else the constant zero. -/
theorem ensures_knownOrZero (kind : DerivativeKind) (primal : ValueId) (known : Option ValueId) :
    Ensures (do
      let w ←
        match known with
        | some w => pure w
        | none => literal 0
      tag kind primal w
      return w) r fun w r' => r.Extends r' ∧
        (known = some w ∨ known = none ∧ r'.graph.get? w = some ⟨.literal 0, []⟩) := by
  -- Tagging comes last in both cases, and hands the value back.
  have hTagged : ∀ w r₁, Ensures (do tag kind primal w; return w) r₁ fun w' r' =>
      r₁.Extends r' ∧ w' = w := by
    intro w r₁
    apply Ensures.bind (ensures_tag kind primal w)
    rintro ⟨⟩ r₂ ⟨hExtends, -⟩
    exact ensures_pure ⟨hExtends, rfl⟩
  cases known with
  | some w =>
    apply Ensures.imp (hTagged w r)
    rintro w' r' ⟨hExtends, rfl⟩
    exact ⟨hExtends, Or.inl rfl⟩
  | none =>
    apply Ensures.bind_extends (ensures_literal 0)
    rintro w r₁ - ⟨-, hGet⟩
    apply Ensures.imp (hTagged w r₁)
    rintro w' r₂ ⟨hExtends, rfl⟩
    exact ⟨hExtends, Or.inr ⟨rfl, hExtends.graph.get?_of_some hGet⟩⟩

/-! ## Operations -/

/-- An operation that fits its operands becomes a value of the shape given. -/
theorem ensures_pushShaped {op : Operation} {operands : List ValueId} {s : Shape}
    (hLt : ∀ w ∈ operands, w < r.graph.size) (hFits : op.Fits (operands.map r.graph.shape) s) :
    Ensures (pushShaped op operands s) r fun v r' =>
      r.Extends r' ∧ v = r.graph.size ∧ r'.graph.get? v = some ⟨.op op operands, s⟩ :=
  ensures_add ⟨hLt, hFits⟩

theorem ensures_push {op : Operation} {operands : List ValueId} {s : Shape}
    (hLt : ∀ w ∈ operands, w < r.graph.size)
    (hShape : op.resultShape (operands.map r.graph.shape) = .ok s) :
    Ensures (push op operands) r fun v r' =>
      r.Extends r' ∧ v = r.graph.size ∧ r'.graph.get? v = some ⟨.op op operands, s⟩ := by
  unfold push
  apply ensures_get_bind
  simp only
  rw [hShape]
  exact ensures_pushShaped hLt (Operation.fits_of_resultShape hShape)

theorem ensures_reshape {a : ValueId} {target : Shape} (ha : a < r.graph.size)
    (hSize : (r.graph.shape a).size = target.size) :
    Ensures (reshape a target) r fun v r' =>
      r.Extends r' ∧ v = r.graph.size ∧ r'.graph.get? v = some ⟨.op .reshape [a], target⟩ := by
  unfold reshape
  apply ensures_shapeOf_bind
  rw [Shape.checkReshape_eq_ok.mpr hSize]
  exact ensures_pushShaped (by simpa using ha) (.reshape hSize)

theorem ensures_broadcastTo {a : ValueId} {target : Shape} (ha : a < r.graph.size)
    (hBelow : (r.graph.shape a).Below target) :
    Ensures (broadcastTo a target) r fun v r' =>
      r.Extends r' ∧ v = r.graph.size ∧ r'.graph.get? v = some
        ⟨.op (.broadcast (trailingDims (r.graph.shape a).rank target.rank)) [a], target⟩ := by
  have hStretches := hBelow.stretches
  unfold broadcastTo
  apply ensures_shapeOf_bind
  rw [if_neg (Nat.not_lt.mpr hBelow.rank_le)]
  simp only
  rw [Shape.checkBroadcast_eq_ok.mpr hStretches]
  exact ensures_pushShaped (by simpa using ha) (.broadcast hStretches)

/-! ## What operations compute -/

section Entries

variable {R : Type*} [CommRing R] {I : Interpretation R} {inputs : ValueId → Position → R}
  {out : Shape} {entries₁ entries₂ : Position → R} {a b : ValueId}

/-- A recorded operation computes its entries from those of its operands. -/
theorem fills_of_op (I : Interpretation R) (inputs : ValueId → Position → R) {r r' : Recorder}
    (hExtends : r.Extends r') {v : ValueId} {op : Operation} {operands : List ValueId} {s : Shape}
    (hLt : ∀ w ∈ operands, w < r.graph.size) (hv : r.graph.size ≤ v)
    (hGet : r'.graph.get? v = some ⟨.op op operands, s⟩) :
    r'.graph.Fills I inputs s v (op.entry I (operands.map (r.graph.tensor I inputs)) s) := by
  refine ⟨Graph.lt_size_of_get? hGet, Graph.shape_of_get? hGet, ?_⟩
  intro p _
  have hOperands : operands.map (r'.graph.tensor I inputs) =
      operands.map (r.graph.tensor I inputs) :=
    List.map_congr_left fun w hw => Graph.tensor_eq_of_extends hExtends.graph (hLt w hw)
  rw [Graph.entry_of_op hGet fun w hw => Nat.lt_of_lt_of_le (hLt w hw) hv, hOperands]

theorem spreads_of_literal (I : Interpretation R) (inputs : ValueId → Position → R) {g : Graph}
    {v : ValueId} {x : Float} (hGet : g.get? v = some ⟨.literal x, []⟩) (out : Shape) :
    g.Spreads I inputs out v fun _ => I.literal x := by
  refine ⟨Graph.lt_size_of_get? hGet, ?_, ?_⟩
  · rw [Graph.shape_of_get? hGet]
    exact Shape.Below.nil out
  · intro p _
    exact Graph.entry_of_literal hGet _

/-- A broadcast along the last axes fills the shape with the entries that its operand spreads. -/
theorem fills_of_trailing {r' : Recorder} (hExtends : r.Extends r')
    (ha : r.graph.Spreads I inputs out a entries₁) {v : ValueId} (hv : r.graph.size ≤ v)
    (hGet : r'.graph.get? v = some
      ⟨.op (.broadcast (trailingDims (r.graph.shape a).rank out.rank)) [a], out⟩) :
    r'.graph.Fills I inputs out v entries₁ := by
  apply (fills_of_op I inputs hExtends (by simpa using ha.lt) hv hGet).congr
  intro p hp
  rw [← ha.aligned p hp, Tensor.aligned, Graph.tensor, ← Shape.project_trailingDims,
    Shape.length_of_mem_box hp]
  rfl

/-- A stretch changes nothing in the entries that are spread. -/
theorem ensures_stretch (ha : r.graph.Spreads I inputs out a entries₁) :
    Ensures (stretch a (r.graph.shape a) out) r fun v r' =>
      r.Extends r' ∧ r'.graph.Spreads I inputs out v entries₁ ∧
        (r'.graph.shape v = out ∨ v = a) := by
  have hStretch : stretch a (r.graph.shape a) out r =
      if r.graph.shape a = out || (r.graph.literal? a).isSome then (a, r)
      else pushShaped (.broadcast (trailingDims (r.graph.shape a).rank out.rank)) [a] out r := by
    show (if r.graph.shape a = out || (r.graph.literal? a).isSome then pure a
      else pushShaped _ [a] out : Recording ValueId) r = _
    split <;> rfl
  unfold Ensures
  rw [hStretch]
  split
  · exact ⟨Recorder.Extends.refl r, ha, Or.inr rfl⟩
  · have hLt : ∀ w ∈ [a], w < r.graph.size := by simpa using ha.lt
    obtain ⟨hExtends, hv, hGet⟩ := ensures_pushShaped hLt (.broadcast ha.below.stretches)
    exact ⟨hExtends, (fills_of_trailing hExtends ha hv.ge hGet).spreads,
      Or.inl (Graph.shape_of_get? hGet)⟩

/-- The operation combines its operands entry by entry. -/
structure Combines (I : Interpretation R) (op : Operation) (f : R → R → R) : Prop where
  fits : ∀ {a b out : Shape}, a.broadcast b = .ok out → op.Fits [a, b] out
  entry : ∀ (a b : Tensor R) (out : Shape) (p : Position),
    op.entry I [a, b] out p = f (a.aligned p) (b.aligned p)

theorem combines_arith (I : Interpretation R) (op : Arith) :
    Combines I (.arith op) (I.arith op) :=
  ⟨.arith, fun _ _ _ _ => rfl⟩

theorem combines_indicator (I : Interpretation R) (c : Comparison) :
    Combines I (.indicator c) (I.indicator c) :=
  ⟨.indicator, fun _ _ _ _ => rfl⟩

theorem combines_accumulate (I : Interpretation R) : Combines I .accumulate (· + ·) :=
  ⟨.accumulate, fun _ _ _ _ => rfl⟩

/-- Operands that stretch to one shape are combined there entry by entry. The result has their
common shape, which may still be smaller. -/
theorem ensures_elementwise {op : Operation} {f : R → R → R} (hOp : Combines I op f)
    (ha : r.graph.Spreads I inputs out a entries₁)
    (hb : r.graph.Spreads I inputs out b entries₂) :
    Ensures (elementwise op a b) r fun v r' => r.Extends r' ∧
      r'.graph.Spreads I inputs out v (fun p => f (entries₁ p) (entries₂ p)) ∧
      (r.graph.shape a).broadcast (r.graph.shape b) = .ok (r'.graph.shape v) := by
  obtain ⟨c, hCommon, hBelow⟩ := Shape.exists_broadcast ha.below hb.below
  obtain ⟨haBelow, hbBelow⟩ := Shape.below_of_broadcast hCommon
  unfold elementwise
  apply ensures_shapeOf_bind
  apply ensures_shapeOf_bind
  rw [hCommon]
  apply Ensures.bind (ensures_stretch (Graph.spreads_self I inputs ha.lt haBelow))
  rintro a' r₁ ⟨hExtends₁, ha', haShape⟩
  -- The second operand is stretched in the graph that has the first one stretched already.
  have hStretch := ensures_stretch ((Graph.spreads_self I inputs hb.lt hbBelow).extend
    hExtends₁.graph)
  rw [hExtends₁.graph.shape_eq hb.lt] at hStretch
  apply Ensures.bind hStretch
  rintro b' r₂ ⟨hExtends₂, hb', hbShape⟩
  have ha'' := ha'.extend hExtends₂.graph
  have hExtends := hExtends₁.trans hExtends₂
  have hOperands : ∀ w ∈ [a', b'], w < r₂.graph.size := by
    intro w hw
    rcases List.mem_pair.mp hw with rfl | rfl
    · exact ha''.lt
    · exact hb'.lt
  have haStretched : r₂.graph.shape a' = c ∨ r₂.graph.shape a' = r.graph.shape a := by
    rw [hExtends₂.graph.shape_eq ha'.lt, ← hExtends₁.graph.shape_eq ha.lt]
    exact haShape.imp_right (congrArg _)
  have hbStretched : r₂.graph.shape b' = c ∨ r₂.graph.shape b' = r.graph.shape b := by
    rw [← hExtends.graph.shape_eq hb.lt]
    exact hbShape.imp_right (congrArg _)
  have hFits : (r₂.graph.shape a').broadcast (r₂.graph.shape b') = .ok c :=
    Shape.broadcast_of_stretched hCommon haStretched hbStretched
  apply Ensures.imp (ensures_pushShaped hOperands (hOp.fits hFits))
  rintro v r₃ ⟨hExtends₃, hv, hGet⟩
  have hShape : r₃.graph.shape v = c := Graph.shape_of_get? hGet
  have hEntry := fills_of_op I inputs hExtends₃ hOperands hv.ge hGet
  refine ⟨hExtends.trans hExtends₃, ⟨hEntry.lt, hShape ▸ hBelow, ?_⟩, by rw [hShape]⟩
  intro p hp
  have hpc : c.align p ∈ c.box := Shape.align_mem_box hBelow hp
  have hCombined : r₃.graph.entry I inputs v (c.align p) =
      f ((r.graph.tensor I inputs a).aligned (c.align p))
        ((r.graph.tensor I inputs b).aligned (c.align p)) := by
    rw [hEntry.entry _ hpc, ← ha''.aligned _ hpc, ← hb'.aligned _ hpc]
    exact hOp.entry _ _ _ _
  rw [Tensor.aligned, Graph.tensor, hShape]
  show r₃.graph.entry I inputs v (c.align p) = _
  rw [hCombined, Graph.aligned_align haBelow hBelow hp, Graph.aligned_align hbBelow hBelow hp,
    ha.aligned p hp, hb.aligned p hp]

/-- Elementwise arithmetic, for operands that stretch to one shape. -/
theorem ensures_arith (op : Arith) (ha : r.graph.Spreads I inputs out a entries₁)
    (hb : r.graph.Spreads I inputs out b entries₂) :
    Ensures (arith op a b) r fun v r' => r.Extends r' ∧
      r'.graph.Spreads I inputs out v (fun p => I.arith op (entries₁ p) (entries₂ p)) ∧
      (r.graph.shape a).broadcast (r.graph.shape b) = .ok (r'.graph.shape v) :=
  ensures_elementwise (combines_arith I op) ha hb

/-- An elementwise operation on one operand keeps its shape. -/
theorem ensures_push_map {op : Operation} {f : R → R}
    (hShape : ∀ s, op.resultShape [s] = .ok s)
    (hEntry : ∀ (a : Tensor R) (out : Shape) (p : Position),
      op.entry I [a] out p = f (a.aligned p))
    (ha : r.graph.Spreads I inputs out a entries₁) :
    Ensures (push op [a]) r fun v r' => r.Extends r' ∧
      r'.graph.Spreads I inputs out v (fun p => f (entries₁ p)) ∧
      r'.graph.shape v = r.graph.shape a := by
  have hLt : ∀ w ∈ [a], w < r.graph.size := by simpa using ha.lt
  apply (ensures_push hLt (hShape _)).imp_extends
  rintro v r' hExtends ⟨hv, hGet⟩
  have hShape' : r'.graph.shape v = r.graph.shape a := Graph.shape_of_get? hGet
  have hFills := fills_of_op I inputs hExtends hLt hv.ge hGet
  refine ⟨⟨hFills.lt, hShape' ▸ ha.below, ?_⟩, hShape'⟩
  intro p hp
  -- The result is no larger than its operand, so it is aligned as the operand is.
  have hpa := Shape.align_mem_box ha.below hp
  rw [Tensor.aligned, Graph.tensor, hShape', ← ha.aligned p hp]
  show r'.graph.entry I inputs v _ = _
  rw [hFills.entry _ hpa, List.map_singleton, hEntry,
    Graph.aligned_align (Shape.Below.refl _) ha.below hp]

theorem ensures_neg (ha : r.graph.Spreads I inputs out a entries₁) :
    Ensures (neg a) r fun v r' => r.Extends r' ∧
      r'.graph.Spreads I inputs out v (fun p => -entries₁ p) ∧
      r'.graph.shape v = r.graph.shape a :=
  ensures_push_map (fun _ => rfl) (fun _ _ _ => rfl) ha

theorem ensures_call (f : NamedFunction) (ha : r.graph.Spreads I inputs out a entries₁) :
    Ensures (call f a) r fun v r' => r.Extends r' ∧
      r'.graph.Spreads I inputs out v (fun p => I.call f (entries₁ p)) ∧
      r'.graph.shape v = r.graph.shape a :=
  ensures_push_map (fun _ => rfl) (fun _ _ _ => rfl) ha

/-- With an operand that is not stretched the result is not smaller either. -/
theorem ensures_elementwise_left {op : Operation} {f : R → R → R} (hOp : Combines I op f)
    (ha : r.graph.Fills I inputs out a entries₁)
    (hb : r.graph.Spreads I inputs out b entries₂) :
    Ensures (elementwise op a b) r fun v r' => r.Extends r' ∧
      r'.graph.Fills I inputs out v fun p => f (entries₁ p) (entries₂ p) := by
  apply (ensures_elementwise hOp ha.spreads hb).imp_extends
  rintro v r' - ⟨hSpreads, hShape⟩
  have hBelow : (r.graph.shape b).Below (r.graph.shape a) := ha.shape ▸ hb.below
  exact hSpreads.fills ((Shape.eq_of_broadcast_below hShape hBelow).trans ha.shape)

theorem ensures_elementwise_right {op : Operation} {f : R → R → R} (hOp : Combines I op f)
    (ha : r.graph.Spreads I inputs out a entries₁)
    (hb : r.graph.Fills I inputs out b entries₂) :
    Ensures (elementwise op a b) r fun v r' => r.Extends r' ∧
      r'.graph.Fills I inputs out v fun p => f (entries₁ p) (entries₂ p) := by
  apply (ensures_elementwise hOp ha hb.spreads).imp_extends
  rintro v r' - ⟨hSpreads, hShape⟩
  have hBelow : (r.graph.shape a).Below (r.graph.shape b) := hb.shape ▸ ha.below
  exact hSpreads.fills ((Shape.eq_of_below_broadcast hShape hBelow).trans hb.shape)

theorem ensures_neg_fills (ha : r.graph.Fills I inputs out a entries₁) :
    Ensures (neg a) r fun v r' => r.Extends r' ∧
      r'.graph.Fills I inputs out v fun p => -entries₁ p := by
  apply (ensures_neg ha.spreads).imp_extends
  rintro v r' - ⟨hSpreads, hShape⟩
  exact hSpreads.fills (hShape.trans ha.shape)

/-- A contraction of arrays whose axes pair. -/
theorem ensures_contract {axes : ContractionAxes} {ls rs : Shape}
    (hPairable : axes.Pairable ls rs) (ha : r.graph.Fills I inputs ls a entries₁)
    (hb : r.graph.Fills I inputs rs b entries₂) :
    Ensures (contract axes a b) r fun v r' => r.Extends r' ∧
      r'.graph.Fills I inputs (axes.outShape ls rs) v fun p =>
        ∑ x ∈ axes.pairs ls rs p, entries₁ x.1 * entries₂ x.2 := by
  have hLt : ∀ w ∈ [a, b], w < r.graph.size := by
    intro w hw
    rcases List.mem_pair.mp hw with rfl | rfl
    · exact ha.lt
    · exact hb.lt
  have hShape : (Operation.contract axes).resultShape ([a, b].map r.graph.shape) =
      .ok (axes.outShape ls rs) := by
    rw [List.map_cons, List.map_singleton, ha.shape, hb.shape]
    exact ContractionAxes.resultShape_eq_ok.mpr ⟨hPairable, rfl⟩
  apply (ensures_push hLt hShape).imp_extends
  rintro v r' hExtends ⟨hv, hGet⟩
  apply (fills_of_op I inputs hExtends hLt hv.ge hGet).congr
  intro p _
  show ∑ x ∈ axes.pairs (r.graph.shape a) (r.graph.shape b) p, _ = _
  rw [ha.shape, hb.shape]
  apply Finset.sum_congr rfl
  intro x hx
  -- Paired positions lie in the boxes of the operands, where their entries are known.
  obtain ⟨⟨hx₁, hx₂⟩, -⟩ := Finset.mem_filter.mp hx |>.imp_left Finset.mem_product.mp
  show r.graph.entry I inputs a x.1 * r.graph.entry I inputs b x.2 = _
  rw [ha.entry _ hx₁, hb.entry _ hx₂]

/-! ## Arithmetic with constants -/

theorem ensures_arithRight (op : Arith) (x : Float)
    (ha : r.graph.Spreads I inputs out a entries₁) :
    Ensures (arithRight op a x) r fun v r' => r.Extends r' ∧
      r'.graph.Spreads I inputs out v (fun p => I.arith op (entries₁ p) (I.literal x)) ∧
      r'.graph.shape v = r.graph.shape a := by
  apply (ensures_literal x).bind_extends
  rintro c r₁ hExtends ⟨-, hGet⟩
  apply (ensures_arith op (ha.extend hExtends.graph)
    (spreads_of_literal I inputs hGet out)).imp_extends
  rintro v r₂ - ⟨hSpreads, hShape⟩
  refine ⟨hSpreads, ?_⟩
  rw [Graph.shape_of_get? hGet, hExtends.graph.shape_eq ha.lt] at hShape
  exact Shape.eq_of_broadcast_below hShape (Shape.Below.nil _)

theorem ensures_arithLeft (op : Arith) (x : Float)
    (hb : r.graph.Spreads I inputs out b entries₂) :
    Ensures (arithLeft op x b) r fun v r' => r.Extends r' ∧
      r'.graph.Spreads I inputs out v (fun p => I.arith op (I.literal x) (entries₂ p)) ∧
      r'.graph.shape v = r.graph.shape b := by
  apply (ensures_literal x).bind_extends
  rintro c r₁ hExtends ⟨-, hGet⟩
  apply (ensures_arith op (spreads_of_literal I inputs hGet out)
    (hb.extend hExtends.graph)).imp_extends
  rintro v r₂ - ⟨hSpreads, hShape⟩
  refine ⟨hSpreads, ?_⟩
  rw [Graph.shape_of_get? hGet, hExtends.graph.shape_eq hb.lt] at hShape
  exact Shape.eq_of_below_broadcast hShape (Shape.Below.nil _)

/-- The indicator of where a value is positive. -/
theorem ensures_positive (ha : r.graph.Spreads I inputs out a entries₁) :
    Ensures (positive a) r fun v r' => r.Extends r' ∧
      r'.graph.Spreads I inputs out v (fun p => I.indicator .gt (entries₁ p) (I.literal 0)) ∧
      r'.graph.shape v = r.graph.shape a := by
  apply (ensures_literal 0).bind_extends
  rintro c r₁ hExtends ⟨-, hGet⟩
  apply (ensures_elementwise (combines_indicator I .gt) (ha.extend hExtends.graph)
    (spreads_of_literal I inputs hGet out)).imp_extends
  rintro v r₂ - ⟨hSpreads, hShape⟩
  refine ⟨hSpreads, ?_⟩
  rw [Graph.shape_of_get? hGet, hExtends.graph.shape_eq ha.lt] at hShape
  exact Shape.eq_of_broadcast_below hShape (Shape.Below.nil _)

end Entries

end Recording

/-! ## Actions that may find no rule -/

namespace Differentiating

open Recording

variable {α β : Type} {m : Differentiating α} {f : α → Differentiating β} {r : Recorder}

/-- The action finds all rules it needs, and then something holds of its result and the
recorder. -/
def Yields (m : Differentiating α) (r : Recorder) (Q : α → Recorder → Prop) : Prop :=
  Ensures m.run r fun result r' => ∃ a, result = .ok a ∧ Q a r'

/-- The action ends with an error. -/
def Throws (m : Differentiating α) (r : Recorder) (e : DerivativeError) : Prop :=
  Ensures m.run r fun result _ => result = .error e

/-- What holds of an action that finds all rules holds of the way it runs. -/
theorem Yields.run_eq {Q : α → Recorder → Prop} (h : Yields m r Q) {a : α} {r' : Recorder}
    (hRun : m.run r = (.ok a, r')) : Q a r' := by
  obtain ⟨a', hOk, hQ⟩ := h
  rw [hRun] at hOk hQ
  obtain rfl := Except.ok.inj hOk
  exact hQ

theorem Yields.exists_run {Q : α → Recorder → Prop} (h : Yields m r Q) :
    ∃ a r', m.run r = (.ok a, r') ∧ Q a r' := by
  obtain ⟨a, hOk, hQ⟩ := h
  exact ⟨a, _, Prod.ext hOk rfl, hQ⟩

theorem Yields.imp {P Q : α → Recorder → Prop} (h : Yields m r P)
    (hImp : ∀ a r', P a r' → Q a r') : Yields m r Q := by
  obtain ⟨a, hOk, hP⟩ := h
  exact ⟨a, hOk, hImp a _ hP⟩

/-- The second action runs where the first one ends, unless that ends with an error. -/
theorem run_bind (m : Differentiating α) (f : α → Differentiating β) (r : Recorder) :
    (m >>= f).run r =
      match m.run r with
      | (.ok a, r') => (f a).run r'
      | (.error e, r') => (.error e, r') := by
  rw [ExceptT.run_bind]
  show (StateT.bind _ _ : Recording _) r = _
  unfold StateT.bind
  cases hRun : m.run r with
  | mk result r' =>
    cases result <;> rfl

/-- A run that ends without an error has run both of its parts. -/
theorem exists_run_of_bind {b : β} {r'' : Recorder} (h : (m >>= f).run r = (Except.ok b, r'')) :
    ∃ a r', m.run r = (Except.ok a, r') ∧ (f a).run r' = (Except.ok b, r'') := by
  rw [run_bind] at h
  cases hRun : m.run r with
  | mk result r' =>
    rw [hRun] at h
    cases result with
    | error e => exact absurd (congrArg Prod.fst h) (by simp)
    | ok a => exact ⟨a, r', rfl, h⟩

theorem Yields.bind {P : α → Recorder → Prop} {Q : β → Recorder → Prop} (h : Yields m r P)
    (hNext : ∀ a r', P a r' → Yields (f a) r' Q) : Yields (m >>= f) r Q := by
  obtain ⟨a, hOk, hP⟩ := h
  have hRun : m.run r = (.ok a, (m.run r).2) := Prod.ext hOk rfl
  unfold Yields Ensures
  rw [run_bind, hRun]
  exact hNext a _ hP

theorem Throws.bind {e : DerivativeError} (h : Throws m r e) : Throws (m >>= f) r e := by
  have hRun : m.run r = (.error e, (m.run r).2) := Prod.ext h rfl
  unfold Throws Ensures
  rw [run_bind, hRun]

theorem Yields.throws {P : α → Recorder → Prop} {e : DerivativeError} (h : Yields m r P)
    (hNext : ∀ a r', P a r' → Throws (f a) r' e) : Throws (m >>= f) r e := by
  obtain ⟨a, hOk, hP⟩ := h
  have hRun : m.run r = (.ok a, (m.run r).2) := Prod.ext hOk rfl
  unfold Throws Ensures
  rw [run_bind, hRun]
  exact hNext a _ hP

theorem Yields.foldlM {σ : Type} {f : σ → α → Differentiating σ} {as : List α}
    (Inv : List α → σ → Recorder → Prop) {s : σ} (hStart : Inv [] s r)
    (hStep : ∀ before a after s r, as = before ++ a :: after → Inv before s r →
      Yields (f s a) r (Inv (before ++ [a]))) :
    Yields (as.foldlM f s) r (Inv as) := by
  suffices h : ∀ after before s r, as = before ++ after → Inv before s r →
      Yields (after.foldlM f s) r (Inv as) from h as [] s r rfl hStart
  intro after
  induction after with
  | nil =>
    intro before s r hSplit hInv
    rw [List.append_nil] at hSplit
    exact ⟨s, rfl, hSplit ▸ hInv⟩
  | cons a after ih =>
    intro before s r hSplit hInv
    rw [List.foldlM_cons]
    apply Yields.bind (hStep before a after s r hSplit hInv)
    intro s' r' hInv'
    exact ih (before ++ [a]) s' r' (by rw [hSplit, List.append_assoc]; rfl) hInv'

theorem yields_pure {a : α} {Q : α → Recorder → Prop} (h : Q a r) :
    Yields (pure a) r Q := ⟨a, rfl, h⟩

theorem throws_throw (e : DerivativeError) : Throws (throw e : Differentiating α) r e := rfl

/-- Recording alone needs no rule. -/
theorem yields_lift {m : Recording α} {Q : α → Recorder → Prop} (h : Ensures m r Q) :
    Yields (liftM m) r Q := ⟨_, rfl, h⟩

/-- Where a recording ends, what it ensures holds. -/
theorem of_run_lift {m : Recording α} {r r' : Recorder} {a : α} {Q : α → Recorder → Prop}
    (hRun : (liftM m : Differentiating α).run r = (Except.ok a, r')) (h : Ensures m r Q) :
    Q a r' := by
  have hYields : Yields (liftM m) r Q := yields_lift h
  exact hYields.run_eq hRun

/-! ## Actions that follow a plan -/

variable {σ τ : Type*}

/-- The action ends as the plan says: with its error, or with a result that matches its own. -/
def Follows (m : Differentiating α) (r : Recorder) (plan : Except DerivativeError σ)
    (Q : σ → α → Recorder → Prop) : Prop :=
  (∀ s, plan = .ok s → Yields m r (Q s)) ∧ ∀ e, plan = .error e → Throws m r e

variable {plan : Except DerivativeError σ} {P : σ → α → Recorder → Prop}

theorem follows_ok {s : σ} (h : Yields m r (P s)) : Follows m r (.ok s) P := by
  refine ⟨?_, fun e he => absurd he (by simp)⟩
  rintro s' hs
  exact Except.ok.inj hs ▸ h

theorem follows_error {e : DerivativeError} (h : Throws m r e) :
    Follows m r (.error e : Except DerivativeError σ) P := by
  refine ⟨fun s hs => absurd hs (by simp), ?_⟩
  rintro e' he
  exact Except.error.inj he ▸ h

theorem Follows.imp {Q : σ → α → Recorder → Prop} (h : Follows m r plan P)
    (hImp : ∀ s a r', P s a r' → Q s a r') : Follows m r plan Q :=
  ⟨fun s hs => (h.1 s hs).imp fun a r' hP => hImp s a r' hP, h.2⟩

/-- One plan after the other. -/
theorem Follows.bind {next : σ → Except DerivativeError σ} {Q : σ → β → Recorder → Prop}
    (h : Follows m r plan P)
    (hNext : ∀ s a r', P s a r' → Follows (f a) r' (next s) Q) :
    Follows (m >>= f) r (plan >>= next) Q := by
  cases plan with
  | error e => exact follows_error (Throws.bind (h.2 e rfl))
  | ok s =>
    show Follows (m >>= f) r (next s) Q
    refine ⟨?_, ?_⟩
    · intro s' hs'
      exact Yields.bind (h.1 s rfl) fun a r' hP => (hNext s a r' hP).1 s' hs'
    · intro e he
      exact Yields.throws (h.1 s rfl) fun a r' hP => (hNext s a r' hP).2 e he

/-- Actions that need no rule may come after a plan. -/
theorem Follows.bind_yields {Q : σ → β → Recorder → Prop} (h : Follows m r plan P)
    (hNext : ∀ s a r', P s a r' → Yields (f a) r' (Q s)) : Follows (m >>= f) r plan Q := by
  refine ⟨?_, fun e he => Throws.bind (h.2 e he)⟩
  intro s hs
  exact Yields.bind (h.1 s hs) fun a r' hP => hNext s a r' hP

/-- Actions that need no rule may come before a plan. -/
theorem Yields.bind_follows {R : α → Recorder → Prop} {Q : σ → β → Recorder → Prop}
    (h : Yields m r R) (hNext : ∀ a r', R a r' → Follows (f a) r' plan Q) :
    Follows (m >>= f) r plan Q := by
  refine ⟨?_, ?_⟩
  · intro s hs
    exact Yields.bind h fun a r' hR => (hNext a r' hR).1 s hs
  · intro e he
    exact Yields.throws h fun a r' hR => (hNext a r' hR).2 e he

theorem Follows.foldlM {ι : Type} {f : α → ι → Differentiating α}
    {next : σ → ι → Except DerivativeError σ} {is : List ι} {a : α} {s : σ} (h : P s a r)
    (hStep : ∀ i s a r, P s a r → Follows (f a i) r (next s i) P) :
    Follows (is.foldlM f a) r (is.foldlM next s) P := by
  induction is generalizing a s r with
  | nil => exact follows_ok (yields_pure h)
  | cons i is ih =>
    rw [List.foldlM_cons, List.foldlM_cons]
    exact (hStep i s a r h).bind fun s' a' r' h' => ih h'

/-- A run that ends well was planned to. -/
theorem Follows.ok_of_run (h : Follows m r plan P) {a : α} {r' : Recorder}
    (hRun : m.run r = (.ok a, r')) : ∃ s, plan = .ok s ∧ P s a r' := by
  cases plan with
  | ok s => exact ⟨s, rfl, (h.1 s rfl).run_eq hRun⟩
  | error e =>
    have hThrows : (m.run r).1 = .error e := h.2 e rfl
    rw [hRun] at hThrows
    exact absurd hThrows (by simp)

end Differentiating

end ArrayEquations

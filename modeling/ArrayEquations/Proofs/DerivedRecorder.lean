import ArrayEquations.Proofs.Extension

/-!
# ArrayEquations — what a differentiation adds

A differentiation goes on with a recording and leaves what is there as it is. It adds seeds,
which are inputs; constants; and operations with a rule on values before them. It gives no value
a name. All that it says about values of before is in its tags, and these stand behind the tags
that were there.

## Main definitions

* `Recorder.Derives` — the second recorder has more, with the seeds and tags given.
* `Recording.Makes` — the action adds values and yields a new one or one of those given.
* `Differentiating.Leaves` — what holds after an action that has found all rules.

## Main results

* `Recording.makes_elementwise`, `Recording.makes_push`, … — what operations add.
* `Recording.makes_powerSlope`, … — what the steps of both directions add.
-/

namespace ArrayEquations

/-! ## Tags -/

/-- The tags with one more, unless it is there. -/
def addTag (tags : List DerivativeTag) (t : DerivativeTag) : List DerivativeTag :=
  if tags.contains t then tags else tags ++ [t]

/-- The tags with more tags, one after the other. -/
def addTags (tags new : List DerivativeTag) : List DerivativeTag := new.foldl addTag tags

theorem mem_addTag {tags : List DerivativeTag} {t t' : DerivativeTag} :
    t' ∈ addTag tags t ↔ t' ∈ tags ∨ t' = t := by
  unfold addTag
  split
  · rename_i hContains
    have hMem := List.contains_iff_mem.mp hContains
    exact ⟨Or.inl, fun h => h.elim id fun hEq => hEq ▸ hMem⟩
  · rw [List.mem_append, List.mem_singleton]

theorem mem_addTags {tags new : List DerivativeTag} {t : DerivativeTag} :
    t ∈ addTags tags new ↔ t ∈ tags ∨ t ∈ new := by
  induction new generalizing tags with
  | nil => simp [addTags]
  | cons t' new ih =>
    show t ∈ addTags (addTag tags t') new ↔ _
    rw [ih, mem_addTag, List.mem_cons, or_assoc]

theorem addTags_append (tags new new' : List DerivativeTag) :
    addTags tags (new ++ new') = addTags (addTags tags new) new' := List.foldl_append

/-- A tag that is not there stands last. -/
theorem addTags_concat {tags new : List DerivativeTag} {t : DerivativeTag}
    (hNew : t ∉ addTags tags new) : addTags tags (new ++ [t]) = addTags tags new ++ [t] := by
  rw [addTags_append]
  show addTag (addTags tags new) t = _
  rw [addTag, if_neg (by simpa using hNew)]

/-- What a list of tags adds stands behind the tags that were there. -/
theorem exists_addTags_eq (tags new : List DerivativeTag) :
    ∃ more, addTags tags new = tags ++ more := by
  induction new generalizing tags with
  | nil => exact ⟨[], (List.append_nil _).symm⟩
  | cons tag new ih =>
    obtain ⟨more, hMore⟩ := ih (addTag tags tag)
    have hEq : addTags tags (tag :: new) = addTag tags tag ++ more := hMore
    unfold addTag at hEq
    split at hEq
    · exact ⟨more, hEq⟩
    · exact ⟨tag :: more, by rw [hEq, List.append_assoc]; rfl⟩

/-- Tags that are all different are added as they are. -/
theorem addTags_of_nodup {tags new : List DerivativeTag} (h : (tags ++ new).Nodup) :
    addTags tags new = tags ++ new := by
  induction new generalizing tags with
  | nil => exact (List.append_nil _).symm
  | cons tag new ih =>
    have hNew : tag ∉ tags := fun hMem =>
      (List.nodup_append.mp h).2.2 tag hMem tag List.mem_cons_self rfl
    have hAdd : addTag tags tag = tags ++ [tag] := by
      rw [addTag, if_neg (by simpa using hNew)]
    have hRest : addTags (tags ++ [tag]) new = tags ++ [tag] ++ new := by
      apply ih
      rwa [List.append_assoc]
    calc addTags tags (tag :: new) = addTags (addTag tags tag) new := rfl
      _ = tags ++ (tag :: new) := by rw [hAdd, hRest, List.append_assoc]; rfl

/-- The tags that say of each value that it is the derivative of its primal. -/
def tagsOf (kind : DerivativeKind) (primals values : List ValueId) : List DerivativeTag :=
  (primals.zip values).map fun x => ⟨kind, x.1, x.2⟩

theorem tagsOf_append {kind : DerivativeKind} {primals primals' values values' : List ValueId}
    (h : primals.length = values.length) :
    tagsOf kind (primals ++ primals') (values ++ values') =
      tagsOf kind primals values ++ tagsOf kind primals' values' := by
  rw [tagsOf, tagsOf, tagsOf, List.zip_append h, List.map_append]

theorem mem_tagsOf {kind : DerivativeKind} {primals values : List ValueId} {t : DerivativeTag} :
    t ∈ tagsOf kind primals values ↔ t.kind = kind ∧ (t.primal, t.value) ∈ primals.zip values := by
  obtain ⟨kind', primal, value⟩ := t
  unfold tagsOf
  constructor
  · intro h
    obtain ⟨x, hx, hEq⟩ := List.mem_map.mp h
    obtain ⟨rfl, rfl, rfl⟩ := DerivativeTag.mk.inj hEq
    exact ⟨rfl, hx⟩
  · rintro ⟨rfl, hx⟩
    exact List.mem_map.mpr ⟨_, hx, rfl⟩

private theorem mem_zip_getElem {as bs : List ValueId} {k : Nat} (ha : k < as.length)
    (hb : k < bs.length) : (as[k], bs[k]) ∈ as.zip bs :=
  List.mem_of_getElem? (List.getElem?_zip_eq_some.mpr
    ⟨List.getElem?_eq_getElem ha, List.getElem?_eq_getElem hb⟩)

theorem exists_tag_of_primal {kind : DerivativeKind} {primals values : List ValueId}
    (h : primals.length = values.length) {v : ValueId} (hv : v ∈ primals) :
    ∃ w, ⟨kind, v, w⟩ ∈ tagsOf kind primals values := by
  obtain ⟨k, hk, rfl⟩ := List.getElem_of_mem hv
  exact ⟨_, mem_tagsOf.mpr ⟨rfl, mem_zip_getElem hk (h ▸ hk)⟩⟩

theorem exists_tag_of_value {kind : DerivativeKind} {primals values : List ValueId}
    (h : primals.length = values.length) {w : ValueId} (hw : w ∈ values) :
    ∃ v, ⟨kind, v, w⟩ ∈ tagsOf kind primals values := by
  obtain ⟨k, hk, rfl⟩ := List.getElem_of_mem hw
  exact ⟨_, mem_tagsOf.mpr ⟨rfl, mem_zip_getElem (h ▸ hk) hk⟩⟩

/-! ## Additions -/

/-- What a differentiation may add at a position: an input among the seeds, a constant, or an
operation with a rule on values before it. -/
def Value.Derivable (seeds : List ValueId) (v : ValueId) (value : Value) : Prop :=
  match value.content with
  | .leaf => v ∈ seeds
  | .literal _ => True
  | .op op operands => operands ≠ [] ∧ (∀ w ∈ operands, w < v) ∧ ∀ name, op ≠ .foreign name

theorem Value.Derivable.mono {seeds seeds' : List ValueId} {v : ValueId} {value : Value}
    (h : value.Derivable seeds v) (hSub : ∀ s ∈ seeds, s ∈ seeds') :
    value.Derivable seeds' v := by
  obtain ⟨content, s⟩ := value
  cases content with
  | leaf => exact hSub v h
  | literal x => trivial
  | op op operands => exact h

/-- The second recorder has what the first one has, in its place, and behind it the seeds, as
inputs and arguments, constants and operations, and the tags. -/
structure Recorder.Derives (r r' : Recorder) (seeds : List ValueId := [])
    (tagged : List DerivativeTag := []) : Prop where
  graph : r.graph.Extends r'.graph
  arguments : r'.arguments = r.arguments ++ seedArguments seeds
  bindings : r'.bindings = r.bindings
  tags : r'.tags = addTags r.tags tagged
  added : ∀ v value, r.graph.size ≤ v → r'.graph.get? v = some value → value.Derivable seeds v
  seed : ∀ s ∈ seeds, r.graph.size ≤ s ∧ r'.graph.isLeaf s = true
  tag_lt : ∀ t ∈ tagged, t.primal < r'.graph.size ∧ t.value < r'.graph.size

theorem Graph.Extends.isLeaf_eq {g g' : Graph} (h : g.Extends g') {v : ValueId}
    (hv : v < g.size) : g'.isLeaf v = g.isLeaf v := by
  rw [isLeaf, isLeaf, h.get?_eq v hv]

theorem Graph.Extends.op?_eq {g g' : Graph} (h : g.Extends g') {v : ValueId}
    (hv : v < g.size) : g'.op? v = g.op? v := by
  rw [op?, op?, h.get?_eq v hv]

theorem Graph.Extends.operands_eq {g g' : Graph} (h : g.Extends g') {v : ValueId}
    (hv : v < g.size) : g'.operands v = g.operands v := by
  rw [operands, operands, h.get?_eq v hv]

theorem Graph.lt_size_of_isLeaf {g : Graph} {v : ValueId} (h : g.isLeaf v = true) : v < g.size :=
  lt_size_of_get? (isLeaf_eq_true h)

namespace Recorder.Derives

variable {r r₁ r₂ r₃ : Recorder} {seeds seeds₁ seeds₂ : List ValueId}
  {tagged tagged₁ tagged₂ : List DerivativeTag}

theorem refl (r : Recorder) : r.Derives r where
  graph := .refl _
  arguments := (List.append_nil _).symm
  bindings := rfl
  tags := rfl
  added _ _ hv hGet := absurd (Graph.lt_size_of_get? hGet) (Nat.not_lt.mpr hv)
  seed _ hs := absurd hs List.not_mem_nil
  tag_lt _ ht := absurd ht List.not_mem_nil

/-- One addition after the other. -/
theorem trans (h₁ : r₁.Derives r₂ seeds₁ tagged₁) (h₂ : r₂.Derives r₃ seeds₂ tagged₂) :
    r₁.Derives r₃ (seeds₁ ++ seeds₂) (tagged₁ ++ tagged₂) where
  graph := h₁.graph.trans h₂.graph
  arguments := by
    rw [h₂.arguments, h₁.arguments, List.append_assoc, seedArguments, seedArguments, seedArguments,
      List.map_append]
  bindings := h₂.bindings.trans h₁.bindings
  tags := by rw [h₂.tags, h₁.tags, addTags_append]
  added := by
    intro v value hv hGet
    -- The value was there after the first addition, or the second one added it.
    by_cases hOld : v < r₂.graph.size
    · rw [h₂.graph.get?_eq v hOld] at hGet
      exact (h₁.added v value hv hGet).mono fun s hs => List.mem_append_left _ hs
    · exact (h₂.added v value (Nat.not_lt.mp hOld) hGet).mono fun s hs =>
        List.mem_append_right _ hs
  seed := by
    intro s hs
    rcases List.mem_append.mp hs with hs | hs
    · obtain ⟨hNew, hLeaf⟩ := h₁.seed s hs
      rw [h₂.graph.isLeaf_eq (Graph.lt_size_of_isLeaf hLeaf)]
      exact ⟨hNew, hLeaf⟩
    · obtain ⟨hNew, hLeaf⟩ := h₂.seed s hs
      exact ⟨Nat.le_trans h₁.graph.size_le hNew, hLeaf⟩
  tag_lt := by
    intro t ht
    rcases List.mem_append.mp ht with ht | ht
    · obtain ⟨hPrimal, hValue⟩ := h₁.tag_lt t ht
      exact ⟨Nat.lt_of_lt_of_le hPrimal h₂.graph.size_le,
        Nat.lt_of_lt_of_le hValue h₂.graph.size_le⟩
    · exact h₂.tag_lt t ht

/-- Additions without seeds and tags. -/
theorem trans_plain (h₁ : r₁.Derives r₂) (h₂ : r₂.Derives r₃) : r₁.Derives r₃ := h₁.trans h₂

theorem lt (h : r.Derives r₁ seeds tagged) {v : ValueId} (hv : v < r.graph.size) :
    v < r₁.graph.size :=
  Nat.lt_of_lt_of_le hv h.graph.size_le

/-- The inputs of both are those of the first one and the seeds. -/
theorem mem_arguments (h : r.Derives r₁ seeds tagged) {v : ValueId} :
    v ∈ r₁.arguments.map (·.value) ↔ v ∈ r.arguments.map (·.value) ∨ v ∈ seeds := by
  rw [h.arguments, List.map_append, List.mem_append]
  simp [seedArguments]

/-- Where there were no tags, there are those of the additions. -/
theorem mem_tags (h : r.Derives r₁ seeds tagged) (hTags : r.tags = []) {tag : DerivativeTag} :
    tag ∈ r₁.tags ↔ tag ∈ tagged := by
  rw [h.tags, hTags, mem_addTags]
  simp

end Recorder.Derives

/-- Operations come after their operands, and those that have a rule have operands. -/
structure Graph.Founded (g : Graph) : Prop where
  before : ∀ {v op operands s}, g.get? v = some ⟨.op op operands, s⟩ → ∀ w ∈ operands, w < v
  nonempty : ∀ {v op operands s}, g.get? v = some ⟨.op op operands, s⟩ →
    (∀ name, op ≠ .foreign name) → operands ≠ []

theorem Graph.WellFormed.founded {g : Graph} (h : g.WellFormed) : g.Founded := by
  refine ⟨h.before, ?_⟩
  intro v op operands s hGet hRule
  have hFits := h.fits hGet
  rintro rfl
  cases hFits with
  | foreign => exact hRule _ rfl

theorem Graph.Founded.ordered {g : Graph} (h : g.Founded) : g.Ordered :=
  ordered_of_before h.before

/-- What is added has its operands before it too. -/
theorem Recorder.Derives.founded {r r' : Recorder} {seeds : List ValueId}
    {tagged : List DerivativeTag} (h : r.Derives r' seeds tagged) (hGraph : r.graph.Founded) :
    r'.graph.Founded := by
  have hNew : ∀ {v op operands s}, ¬ v < r.graph.size →
      r'.graph.get? v = some ⟨.op op operands, s⟩ → operands ≠ [] ∧ ∀ w ∈ operands, w < v := by
    intro v op operands s hv hGet
    obtain ⟨hNonempty, hBefore, -⟩ := h.added v _ (Nat.not_lt.mp hv) hGet
    exact ⟨hNonempty, hBefore⟩
  constructor
  · intro v op operands s hGet
    by_cases hv : v < r.graph.size
    · exact hGraph.before ((h.graph.get?_eq v hv).symm.trans hGet)
    · exact (hNew hv hGet).2
  · intro v op operands s hGet hRule
    by_cases hv : v < r.graph.size
    · exact hGraph.nonempty ((h.graph.get?_eq v hv).symm.trans hGet) hRule
    · exact (hNew hv hGet).1

/-! ## Actions -/

namespace Recording

/-- The action adds values, no input among them, and yields one of its new values or one of those
given. -/
def Makes (sources : List ValueId) (m : Recording ValueId) (r : Recorder) : Prop :=
  Ensures m r fun v r' =>
    r.Derives r' ∧ v < r'.graph.size ∧ (r.graph.size ≤ v ∨ v ∈ sources)

variable {r : Recorder} {sources : List ValueId} {m : Recording ValueId}
  {f : ValueId → Recording ValueId} {a b : ValueId}

/-- One action after the other: the second one may also yield what the first one made. -/
theorem Makes.bind (h : Makes sources m r)
    (hNext : ∀ v r', r.Derives r' → v < r'.graph.size → Makes (v :: sources) (f v) r') :
    Makes sources (m >>= f) r := by
  apply Ensures.bind h
  rintro v r₁ ⟨hDerives₁, hv, hSource⟩
  apply (hNext v r₁ hDerives₁ hv).imp
  rintro w r₂ ⟨hDerives₂, hw, hSource'⟩
  refine ⟨hDerives₁.trans_plain hDerives₂, hw, ?_⟩
  rcases hSource' with hNew | hMem
  · exact Or.inl (Nat.le_trans hDerives₁.graph.size_le hNew)
  · rcases List.mem_cons.mp hMem with rfl | hMem
    · exact hSource
    · exact Or.inr hMem

theorem Makes.mono {sources' : List ValueId} (h : Makes sources m r)
    (hSub : ∀ v ∈ sources, v ∈ sources') : Makes sources' m r := by
  apply Ensures.imp h
  rintro v r' ⟨hDerives, hv, hSource⟩
  exact ⟨hDerives, hv, hSource.imp_right (hSub v)⟩

/-- An action that only yields new values may be done where others are allowed too. -/
theorem Makes.of_new (h : Makes [] m r) : Makes sources m r :=
  h.mono fun _ hv => absurd hv List.not_mem_nil

theorem makes_pure (ha : a < r.graph.size) (hSource : a ∈ sources) : Makes sources (pure a) r :=
  ⟨Recorder.Derives.refl r, ha, Or.inr hSource⟩

/-- One value is added at the end. -/
theorem derives_push {value : Value} (h : value.Derivable [] r.graph.size) :
    r.Derives { r with graph := r.graph.push value } where
  graph := .push _ _
  arguments := (List.append_nil _).symm
  bindings := rfl
  tags := rfl
  added v value' hv hGet := by
    rcases Graph.get?_push hGet with hOld | ⟨rfl, rfl⟩
    · exact absurd (Graph.lt_size_of_get? hOld) (Nat.not_lt.mpr hv)
    · exact h
  seed _ hs := absurd hs List.not_mem_nil
  tag_lt _ ht := absurd ht List.not_mem_nil

theorem makes_add {value : Value} (h : value.Derivable [] r.graph.size) :
    Makes [] (add value) r := by
  refine ⟨derives_push h, ?_, Or.inl (Nat.le_refl _)⟩
  show r.graph.size < (r.graph.push value).size
  rw [Graph.size_push]
  omega

theorem makes_literal (x : Float) : Makes [] (literal x) r := makes_add trivial

/-- A failure is noted, and a constant takes the place of the result. -/
theorem makes_fail (e : RecordingError) : Makes [] (fail e) r := by
  let r₁ : Recorder := { r with error := r.error.or (some e) }
  have hNoted : r.Derives r₁ := { Recorder.Derives.refl r with }
  obtain ⟨hDerives, hv, hSource⟩ : Makes [] (literal 0) r₁ := makes_literal 0
  exact ⟨hNoted.trans_plain hDerives, hv, hSource⟩

theorem makes_pushShaped {op : Operation} {operands : List ValueId} {s : Shape}
    (hNonempty : operands ≠ []) (hLt : ∀ w ∈ operands, w < r.graph.size)
    (hRule : ∀ name, op ≠ .foreign name) : Makes [] (pushShaped op operands s) r :=
  makes_add ⟨hNonempty, hLt, hRule⟩

theorem makes_push {op : Operation} {operands : List ValueId} (hNonempty : operands ≠ [])
    (hLt : ∀ w ∈ operands, w < r.graph.size) (hRule : ∀ name, op ≠ .foreign name) :
    Makes [] (push op operands) r := by
  unfold push
  apply ensures_get_bind
  simp only
  cases op.resultShape (operands.map r.graph.shape) with
  | ok s => exact makes_pushShaped hNonempty hLt hRule
  | error e => exact makes_fail _

/-- An operation on one operand. -/
theorem makes_push_one {op : Operation} (ha : a < r.graph.size)
    (hRule : ∀ name, op ≠ .foreign name) : Makes [] (push op [a]) r :=
  makes_push (by simp) (by simpa using ha) hRule

theorem makes_stretch (ha : a < r.graph.size) (shape out : Shape) :
    Makes [a] (stretch a shape out) r := by
  unfold stretch
  apply ensures_literalOf?_bind
  split
  · exact makes_pure ha (by simp)
  · exact (makes_pushShaped (by simp) (by simpa using ha) (by simp)).of_new

/-- The result of an elementwise operation is new, also where an operand is stretched. -/
theorem makes_elementwise {op : Operation} (ha : a < r.graph.size) (hb : b < r.graph.size)
    (hRule : ∀ name, op ≠ .foreign name) : Makes [] (elementwise op a b) r := by
  unfold elementwise
  apply ensures_shapeOf_bind
  apply ensures_shapeOf_bind
  cases (r.graph.shape a).broadcast (r.graph.shape b) with
  -- Operands that do not fit record a failure, and nothing else.
  | error e => exact makes_fail _
  | ok out =>
    apply Ensures.bind (makes_stretch ha _ out)
    rintro a' r₁ ⟨hDerives₁, ha', -⟩
    apply Ensures.bind (makes_stretch (hDerives₁.lt hb) _ out)
    rintro b' r₂ ⟨hDerives₂, hb', -⟩
    have hDerives := hDerives₁.trans_plain hDerives₂
    have hLt : ∀ w ∈ [a', b'], w < r₂.graph.size := by
      simpa using ⟨hDerives₂.lt ha', hb'⟩
    apply (makes_pushShaped (by simp) hLt hRule).imp
    rintro v r₃ ⟨hDerives₃, hv, hSource⟩
    have hNew := hSource.resolve_right List.not_mem_nil
    exact ⟨hDerives.trans_plain hDerives₃, hv,
      Or.inl (Nat.le_trans hDerives.graph.size_le hNew)⟩

theorem makes_arith (op : Arith) (ha : a < r.graph.size) (hb : b < r.graph.size) :
    Makes [] (arith op a b) r :=
  makes_elementwise ha hb (by simp)

theorem makes_neg (ha : a < r.graph.size) : Makes [] (neg a) r := makes_push_one ha (by simp)

theorem makes_call (f : NamedFunction) (ha : a < r.graph.size) : Makes [] (call f a) r :=
  makes_push_one ha (by simp)

theorem makes_contract (axes : ContractionAxes) (ha : a < r.graph.size) (hb : b < r.graph.size) :
    Makes [] (contract axes a b) r :=
  makes_push (by simp) (by simpa using ⟨ha, hb⟩) (by simp)

theorem makes_sum (ha : a < r.graph.size) (axes : List Nat) : Makes [] (sum a axes) r :=
  makes_push_one ha (by simp)

theorem makes_transpose (ha : a < r.graph.size) (permutation : List Nat) :
    Makes [] (transpose a permutation) r :=
  makes_push_one ha (by simp)

theorem makes_cast (ha : a < r.graph.size) (dtype : String) : Makes [] (cast a dtype) r :=
  makes_push_one ha (by simp)

theorem makes_reshape (ha : a < r.graph.size) (target : Shape) :
    Makes [] (reshape a target) r := by
  unfold reshape
  apply ensures_shapeOf_bind
  cases (r.graph.shape a).checkReshape target with
  | ok _ => exact makes_pushShaped (by simp) (by simpa using ha) (by simp)
  | error e => exact makes_fail _

theorem makes_broadcastTo (ha : a < r.graph.size) (target : Shape) :
    Makes [] (broadcastTo a target) r := by
  unfold broadcastTo
  apply ensures_shapeOf_bind
  split
  · exact makes_fail _
  · simp only
    cases (r.graph.shape a).checkBroadcast (trailingDims (r.graph.shape a).rank target.rank)
        target with
    | ok _ => exact makes_pushShaped (by simp) (by simpa using ha) (by simp)
    | error e => exact makes_fail _

/-! ## Steps of both directions -/

theorem makes_arithRight (op : Arith) (ha : a < r.graph.size) (x : Float) :
    Makes [] (arithRight op a x) r := by
  apply (makes_literal x).bind
  intro c r₁ hDerives hc
  exact (makes_arith op (hDerives.lt ha) hc).of_new

theorem makes_arithLeft (op : Arith) (x : Float) (hb : b < r.graph.size) :
    Makes [] (arithLeft op x b) r := by
  apply (makes_literal x).bind
  intro c r₁ hDerives hc
  exact (makes_arith op hc (hDerives.lt hb)).of_new

theorem makes_powerSlope (ha : a < r.graph.size) (hb : b < r.graph.size) :
    Makes [] (powerSlope a b) r := by
  unfold powerSlope
  apply ensures_literalOf?_bind
  cases r.graph.literal? b with
  | some c =>
    simp only
    split
    · exact makes_arithLeft .mul c ha
    · apply (makes_arithRight .pow ha _).bind
      intro power r₁ _ hPower
      exact (makes_arithLeft .mul c hPower).of_new
  | none =>
    apply (makes_arithRight .sub hb 1).bind
    intro exponent r₁ hDerives₁ hExponent
    apply Makes.bind (makes_arith .pow (hDerives₁.lt ha) hExponent).of_new
    intro power r₂ hDerives₂ hPower
    exact (makes_arith .mul (hDerives₂.lt (hDerives₁.lt hb)) hPower).of_new

theorem makes_positive (ha : a < r.graph.size) : Makes [] (positive a) r := by
  apply (makes_literal 0).bind
  intro origin r₁ hDerives hOrigin
  exact (makes_elementwise (hDerives.lt ha) hOrigin (by simp)).of_new

/-! ## Seeds and tags -/

/-- A tag of values that are there. -/
theorem derives_tag (kind : DerivativeKind) {primal value : ValueId}
    (hPrimal : primal < r.graph.size) (hValue : value < r.graph.size) :
    Ensures (tag kind primal value) r fun _ r' => r.Derives r' [] [⟨kind, primal, value⟩] := by
  have hRun : (tag kind primal value r).2 =
      { r with tags := addTag r.tags ⟨kind, primal, value⟩ } := by
    show (if r.tags.contains ⟨kind, primal, value⟩ then r else _) = _
    unfold addTag
    split <;> rfl
  have hRefl := Recorder.Derives.refl r
  unfold Ensures
  rw [hRun]
  refine ⟨hRefl.graph, hRefl.arguments, rfl, rfl, hRefl.added, hRefl.seed, ?_⟩
  intro t ht
  obtain rfl := List.mem_singleton.mp ht
  exact ⟨hPrimal, hValue⟩

/-- A derivative input is a seed, tagged with its primal. -/
theorem derives_derivativeInput (kind : DerivativeKind) {primal : ValueId}
    (hPrimal : primal < r.graph.size) :
    Ensures (derivativeInput kind primal) r fun v r' =>
      r.Derives r' [v] [⟨kind, primal, v⟩] ∧ r.graph.size ≤ v ∧ r'.graph.isLeaf v = true := by
  let leaf : Value := ⟨.leaf, r.graph.shape primal⟩
  let r₁ : Recorder := ⟨r.graph.push leaf, r.arguments ++ [⟨r.graph.size, none, true⟩], r.bindings,
    r.tags, r.error⟩
  have hLeaf : r₁.graph.isLeaf r.graph.size = true := by
    show (r.graph.push leaf).isLeaf r.graph.size = true
    rw [Graph.isLeaf, Graph.get?_push_size]
    rfl
  have hAdded : r.Derives r₁ [r.graph.size] := by
    refine ⟨.push _ _, rfl, rfl, rfl, ?_, ?_, fun t ht => absurd ht List.not_mem_nil⟩
    · intro v value hv hGet
      rcases Graph.get?_push hGet with hOld | ⟨rfl, rfl⟩
      · exact absurd (Graph.lt_size_of_get? hOld) (Nat.not_lt.mpr hv)
      · exact List.mem_singleton.mpr rfl
    · intro s hs
      obtain rfl := List.mem_singleton.mp hs
      exact ⟨Nat.le_refl _, hLeaf⟩
  -- The value has no name, so the argument that it becomes has none either.
  have hRun : derivativeInput kind primal r =
      (r.graph.size, (tag kind primal r.graph.size r₁).2) := rfl
  have hTag : r₁.Derives (tag kind primal r.graph.size r₁).2 [] [⟨kind, primal, r.graph.size⟩] :=
    derives_tag kind (hAdded.lt hPrimal) (Graph.lt_size_of_isLeaf hLeaf)
  unfold Ensures
  rw [hRun]
  refine ⟨hAdded.trans hTag, Nat.le_refl _, ?_⟩
  rw [hTag.graph.isLeaf_eq (Graph.lt_size_of_isLeaf hLeaf)]
  exact hLeaf

/-- A derivative that is known, or else the constant zero, is tagged with its primal. -/
theorem derives_known (kind : DerivativeKind) {primal : ValueId} {known : Option ValueId}
    {P : ValueId → Prop} (hNew : ∀ w, r.graph.size ≤ w → P w) (hPrimal : primal < r.graph.size)
    (hKnown : ∀ w ∈ known, w < r.graph.size ∧ P w) :
    Ensures (do
      let w ←
        match known with
        | some w => pure w
        | none => literal 0
      tag kind primal w
      return w) r fun w r' => r.Derives r' [] [⟨kind, primal, w⟩] ∧ P w := by
  -- Both ways end with the same tag, so the tag comes first.
  have hTagged : ∀ w r₁, r.Derives r₁ → w < r₁.graph.size → P w →
      Ensures (do tag kind primal w; return w) r₁ fun w' r' =>
        r.Derives r' [] [⟨kind, primal, w'⟩] ∧ P w' := by
    intro w r₁ hDerives hw hP
    apply Ensures.bind (derives_tag kind (hDerives.lt hPrimal) hw)
    rintro ⟨⟩ r₂ hTag
    exact ensures_pure ⟨hDerives.trans hTag, hP⟩
  cases known with
  | some w =>
    obtain ⟨hw, hP⟩ := hKnown w rfl
    exact hTagged w r (Recorder.Derives.refl r) hw hP
  | none =>
    apply Ensures.bind (makes_literal 0)
    rintro w r₁ ⟨hLiteral, hw, hSource⟩
    exact hTagged w r₁ hLiteral hw (hNew w (hSource.resolve_right List.not_mem_nil))

/-- One derivative after the other, each tagged with its primal. -/
theorem derives_each {kind : DerivativeKind} {P : ValueId → Prop} {primals : List ValueId}
    (hEach : ∀ v ∈ primals, ∀ r₁ tagged, r.Derives r₁ [] tagged →
      Ensures (f v) r₁ fun w r' => r₁.Derives r' [] [⟨kind, v, w⟩] ∧ P w) :
    Ensures (primals.mapM f) r fun ws r' => ws.length = primals.length ∧
      r.Derives r' [] (tagsOf kind primals ws) ∧ ∀ w ∈ ws, P w := by
  apply Ensures.mapM fun before ws r' => ws.length = before.length ∧
    r.Derives r' [] (tagsOf kind before ws) ∧ ∀ w ∈ ws, P w
  · exact ⟨rfl, Recorder.Derives.refl r, fun w hw => absurd hw List.not_mem_nil⟩
  · rintro before v after ws r₁ hSplit ⟨hLength, hDerives, hAll⟩
    apply (hEach v (by simp [hSplit]) r₁ _ hDerives).imp
    rintro w r₂ ⟨hStep, hP⟩
    refine ⟨by simp [hLength], ?_, ?_⟩
    · rw [tagsOf_append hLength.symm]
      exact hDerives.trans hStep
    · intro u hu
      rcases List.mem_append.mp hu with hu | hu
      · exact hAll u hu
      · exact List.mem_singleton.mp hu ▸ hP

end Recording

/-! ## Actions that end without an error -/

namespace Differentiating

variable {α β : Type} {m : Differentiating α} {f : α → Differentiating β} {r : Recorder}

/-- If the action finds all rules that it needs, then something holds of its result and the
recorder. -/
def Leaves (m : Differentiating α) (r : Recorder) (Q : α → Recorder → Prop) : Prop :=
  ∀ a r', m.run r = (.ok a, r') → Q a r'

theorem Leaves.bind {P : α → Recorder → Prop} {Q : β → Recorder → Prop} (h : Leaves m r P)
    (hNext : ∀ a r', P a r' → Leaves (f a) r' Q) : Leaves (m >>= f) r Q := by
  intro b r'' hRun
  obtain ⟨a, r', hFirst, hRest⟩ := exists_run_of_bind hRun
  exact hNext a r' (h a r' hFirst) b r'' hRest

theorem Leaves.imp {P Q : α → Recorder → Prop} (h : Leaves m r P)
    (hImp : ∀ a r', P a r' → Q a r') : Leaves m r Q :=
  fun a r' hRun => hImp a r' (h a r' hRun)

theorem leaves_pure {a : α} {Q : α → Recorder → Prop} (h : Q a r) : Leaves (pure a) r Q :=
  fun _ _ hRun => (yields_pure h).run_eq hRun

theorem leaves_lift {m : Recording α} {Q : α → Recorder → Prop}
    (h : Recording.Ensures m r Q) : Leaves (liftM m) r Q :=
  fun _ _ hRun => of_run_lift hRun h

theorem leaves_throw (e : DerivativeError) {Q : α → Recorder → Prop} :
    Leaves (throw e : Differentiating α) r Q := by
  intro a r' hRun
  have hThrown : ((throw e : Differentiating α).run r).1 = .error e := throws_throw e
  rw [hRun] at hThrown
  exact absurd hThrown (by simp)

/-- A loop keeps what each of its steps keeps. -/
theorem Leaves.foldlM {ι : Type} {f : α → ι → Differentiating α} {is : List ι} {a : α}
    {Inv : α → Recorder → Prop} (hStart : Inv a r)
    (hStep : ∀ i ∈ is, ∀ a r, Inv a r → Leaves (f a i) r Inv) :
    Leaves (is.foldlM f a) r Inv := by
  induction is generalizing a r with
  | nil => exact leaves_pure hStart
  | cons i is ih =>
    rw [List.foldlM_cons]
    refine (hStep i List.mem_cons_self a r hStart).bind ?_
    intro a' r' hInv
    exact ih hInv fun j hj => hStep j (List.mem_cons_of_mem i hj)

end Differentiating

end ArrayEquations

import ArrayEquations.Proofs.PlacedScripts

/-!
# ArrayEquations — what becomes of a reading

An action that reads tokens takes a row of them from the front, or it stops behind such a row, at a
token or at the end of the source. In each case it depends on no token behind the next one: with
other tokens from there on, it does the same.

How many tokens are left bounds how deep a reader may go. So a reader is compared with one that has
another bound, which is enough for a row of some length.

## Main definitions

* `Reads` — what becomes of an action: what holds of what it takes, and of the row before the token
  at which it stops.
* `ReadsUpTo` — the same from any place with few enough tokens left.

## Main results

* `Reads.bind` — one action after another.
* `Reads.accept`, `Reads.peek`, `Reads.place` — actions that look at the next token.
-/

namespace ArrayEquations.Script.Reading

/-- A rest that begins with the same token, or is empty. -/
def NextLike (rest' rest : List Lexeme) : Prop :=
  rest' = [] ∨ rest'.head?.map (·.token) = rest.head?.map (·.token)

/-- What becomes of an action. It takes a row, of which with the result something holds, and leaves
the rest; or it stops behind a row that is viable. A second action does the same on rows up to a
length which begin alike up to the next token; behind what is taken there may also be nothing. -/
inductive Reads {α : Type} (length : Nat) (m m' : Reading α) (Q : α → List Lexeme → Prop)
    (Viable : List Token → Prop) (c : Cursor) : Prop
  | takes (a : α) (row rest : List Lexeme) (hRest : c.rest = row ++ rest)
      (hRun : m.run c = .ok (a, ⟨rest, endOf row c.reached⟩)) (h : Q a row)
      (hLike : ∀ rest', (row ++ rest').length ≤ length → NextLike rest' rest →
        m'.run ⟨row ++ rest', c.reached⟩ = .ok (a, ⟨rest', endOf row c.reached⟩))
  | stops (row rest : List Lexeme) (hRest : c.rest = row ++ rest) (hRun : m.run c = .error rest)
      (hViable : Viable (tokensOf row))
      (hLike : ∀ t rest', rest.head? = some t → (row ++ t :: rest').length ≤ length →
        m'.run ⟨row ++ t :: rest', c.reached⟩ = .error (t :: rest'))

variable {α β : Type} {length : Nat} {m m' : Reading α} {f f' : α → Reading β}
  {P Q : α → List Lexeme → Prop} {R : β → List Lexeme → Prop} {Viable Viable' : List Token → Prop}
  {c : Cursor} {t : Token}

/-! ## One action after another -/

theorem nextLike_append {row rest rest' later : List Lexeme} (hRest : rest = row ++ later)
    (h : row = [] → NextLike rest' later) : NextLike (row ++ rest') rest := by
  subst hRest
  cases row with
  | nil => exact h rfl
  | cons l row => exact Or.inr rfl

/-- **One action after another** takes one row after the other. -/
theorem Reads.bind (h : Reads length m m' P Viable' c)
    (hNext : ∀ a row rest, c.rest = row ++ rest → P a row →
      Reads (length - row.length) (f a) (f' a) (fun b later => R b (row ++ later))
        (fun ts => Viable (tokensOf row ++ ts)) ⟨rest, endOf row c.reached⟩)
    (hViable : ∀ row rest, c.rest = row ++ rest → Viable' (tokensOf row) → Viable (tokensOf row)) :
    Reads length (m >>= f) (m' >>= f') R Viable c := by
  have hRunBind : ∀ (m : Reading α) (f : α → Reading β) (c : Cursor),
      (m >>= f).run c = m.run c >>= fun (a, c) => (f a).run c := fun m f c => rfl
  cases h with
  | stops row rest hRest hRun hStop hLike =>
    refine .stops row rest hRest ?_ (hViable row _ hRest hStop) ?_
    · rw [hRunBind, hRun]
      rfl
    · intro t rest' ht hLength
      rw [hRunBind, hLike t rest' ht hLength]
      rfl
  | takes a row rest hRest hRun hTaken hLike =>
    cases hNext a row rest hRest hTaken with
    | stops row₂ rest₂ hRest₂ hRun₂ hStop hLike₂ =>
      refine .stops (row ++ row₂) rest₂ ?_ ?_ ?_ ?_
      · rw [hRest, List.append_assoc]
        exact congrArg _ hRest₂
      · rw [hRunBind, hRun]
        exact hRun₂
      · rw [tokensOf_append]
        exact hStop
      · intro t rest' ht hLength
        rw [List.append_assoc] at hLength ⊢
        -- What comes next for the first action is what the second one takes or stops at.
        have hLikeRest : NextLike (row₂ ++ t :: rest') rest :=
          nextLike_append hRest₂ fun _ => Or.inr (by rw [ht]; rfl)
        rw [hRunBind, hLike _ hLength hLikeRest]
        rw [List.length_append] at hLength
        exact hLike₂ t rest' ht (by omega)
    | takes b row₂ rest₂ hRest₂ hRun₂ hTaken₂ hLike₂ =>
      refine .takes b (row ++ row₂) rest₂ ?_ ?_ hTaken₂ ?_
      · rw [hRest, List.append_assoc]
        exact congrArg _ hRest₂
      · rw [hRunBind, hRun, endOf_append]
        exact hRun₂
      · intro rest' hLength hNextLike
        rw [List.append_assoc] at hLength ⊢
        rw [hRunBind, hLike _ hLength (nextLike_append hRest₂ fun _ => hNextLike), endOf_append]
        rw [List.length_append] at hLength
        exact hLike₂ rest' (by omega) hNextLike

theorem Reads.imp (h : Reads length m m' P Viable' c)
    (hTakes : ∀ a row rest, c.rest = row ++ rest → P a row → Q a row)
    (hViable : ∀ row rest, c.rest = row ++ rest → Viable' (tokensOf row) → Viable (tokensOf row)) :
    Reads length m m' Q Viable c := by
  cases h with
  | stops row rest hRest hRun hStop hLike =>
    exact .stops row rest hRest hRun (hViable row _ hRest hStop) hLike
  | takes a row rest hRest hRun hTaken hLike =>
    exact .takes a row rest hRest hRun (hTakes a row rest hRest hTaken) hLike

theorem reads_pure {a : α} (h : Q a []) : Reads length (pure a) (pure a) Q Viable c :=
  .takes a [] c.rest rfl rfl h fun _ _ _ => rfl

/-- What an action gives is passed on, changed. -/
theorem Reads.map {g : α → β} (h : Reads length m m' (fun a row => R (g a) row) Viable c) :
    Reads length (m >>= fun a => pure (g a)) (m' >>= fun a => pure (g a)) R Viable c :=
  h.bind (fun a row rest _ ha => reads_pure (by rwa [List.append_nil])) fun _ _ _ => id

theorem reads_stuck (h : Viable []) : Reads length (stuck : Reading α) stuck Q Viable c :=
  .stops [] c.rest rfl rfl h fun _ _ _ _ => rfl

/-- Where no tokens are left nothing can come next, whatever the second action does. -/
theorem reads_exhausted (hNone : c.rest.length ≤ 0) (h : Viable []) :
    Reads length (stuck : Reading α) m' Q Viable c := by
  have hNil : c.rest = [] := List.length_eq_zero_iff.mp (Nat.le_zero.mp hNone)
  refine .stops [] [] hNil (congrArg Except.error hNil) h ?_
  exact fun t rest' ht => absurd ht (by simp)

/-! ## Looking at the next token -/

/-- An action that looks at what is next. Where nothing is taken something else may be next, which
has to make no difference then. -/
theorem Reads.look {look : Cursor → α} (hm : ∀ c, m.run c = .ok (look c, c))
    (hLook : ∀ l rest rest' reached, look ⟨l :: rest, reached⟩ = look ⟨l :: rest', reached⟩)
    (hNext : ∀ b rest', R b [] → NextLike rest' c.rest →
      f' (look ⟨rest', c.reached⟩) = f' (look c))
    (h : Reads length (f (look c)) (f' (look c)) R Viable c) :
    Reads length (m >>= f) (m >>= f') R Viable c := by
  have hRunBind : ∀ (f : α → Reading β) (c : Cursor), (m >>= f).run c = (f (look c)).run c := by
    intro f c
    rw [StateT.run_bind, hm]
    rfl
  have hSame : ∀ l row rest rest', c.rest = l :: row ++ rest →
      look ⟨l :: row ++ rest', c.reached⟩ = look c := by
    intro l row rest rest' hRest
    obtain ⟨tokens, reached⟩ := c
    obtain rfl : tokens = l :: row ++ rest := hRest
    exact hLook l _ _ reached
  cases h with
  | stops row rest hRest hRun hStop hLike =>
    refine .stops row rest hRest (by rw [hRunBind, hRun]) hStop ?_
    intro t rest' ht hLength
    rw [hRunBind]
    have hLooked : look ⟨row ++ t :: rest', c.reached⟩ = look c := by
      cases row with
      | cons l row => exact hSame l row rest (t :: rest') hRest
      | nil =>
        obtain ⟨later, rfl⟩ := List.head?_eq_some_iff.mp ht
        exact hSame t [] later rest' hRest
    rw [hLooked]
    exact hLike t rest' ht hLength
  | takes b row rest hRest hRun hTaken hLike =>
    refine .takes b row rest hRest (by rw [hRunBind, hRun]) hTaken ?_
    intro rest' hLength hLater
    rw [hRunBind]
    have hLooked : f' (look ⟨row ++ rest', c.reached⟩) = f' (look c) := by
      cases row with
      | cons l row => exact congrArg f' (hSame l row rest rest' hRest)
      | nil =>
        -- Nothing is taken, so that the token looked at may be missing.
        obtain rfl : c.rest = rest := hRest
        exact hNext b rest' hTaken hLater
    rw [hLooked]
    exact hLike rest' hLength hLater

/-- Looking at the next token, which makes no difference where nothing is taken. -/
theorem Reads.peek {f f' : Option Token → Reading β}
    (hNext : ∀ b, R b [] → f' none = f' (c.rest.head?.map (·.token)))
    (h : Reads length (f (c.rest.head?.map (·.token))) (f' (c.rest.head?.map (·.token))) R
      Viable c) :
    Reads length (peek >>= f) (peek >>= f') R Viable c := by
  refine Reads.look (fun _ => rfl) (fun _ _ _ _ => rfl) ?_ h
  rintro b rest' hb (rfl | hLike)
  · exact hNext b hb
  · exact congrArg f' hLike

/-- Where the next token starts. -/
def start (c : Cursor) : Nat := (c.rest.head?.map (·.span.start)).getD c.reached

/-- What is taken has the place from the start of its first token to the end of its last one. -/
theorem span_eq_spanOf {row rest : List Lexeme} (hRest : c.rest = row ++ rest) (hSome : row ≠ [])
    (later : List Lexeme) :
    (⟨start c, endOf later (endOf row c.reached)⟩ : Span) = spanOf (row ++ later) := by
  obtain ⟨l, row, rfl⟩ := List.exists_cons_of_ne_nil hSome
  rw [start, hRest, List.cons_append, List.cons_append, spanOf, endOf_append]
  rfl

/-- Asking for the place, where nothing is taken only at the end. -/
theorem Reads.place {f f' : Nat → Reading β} (hSome : ∀ b, R b [] → c.rest = [])
    (h : Reads length (f (start c)) (f' (start c)) R Viable c) :
    Reads length (place >>= f) (place >>= f') R Viable c := by
  refine Reads.look (fun _ => rfl) (fun _ _ _ _ => rfl) ?_ h
  intro b rest' hb hLike
  obtain ⟨tokens, reached⟩ := c
  obtain rfl : tokens = [] := hSome b hb
  obtain rfl : rest' = [] := by
    rcases hLike with h | h
    · exact h
    · simpa using h
  rfl

theorem Reads.spanFrom {f f' : Span → Reading β} {start : Nat}
    (h : Reads length (f ⟨start, c.reached⟩) (f' ⟨start, c.reached⟩) R Viable c) :
    Reads length (spanFrom start >>= f) (spanFrom start >>= f') R Viable c := by
  have hRunBind : ∀ (f : Span → Reading β) (c : Cursor),
      (Reading.spanFrom start >>= f).run c = (f ⟨start, c.reached⟩).run c := fun f c => rfl
  cases h with
  | stops row rest hRest hRun hStop hLike =>
    refine .stops row rest hRest (by rw [hRunBind, hRun]) hStop ?_
    intro t rest' ht hLength
    rw [hRunBind]
    exact hLike t rest' ht hLength
  | takes b row rest hRest hRun hTaken hLike =>
    refine .takes b row rest hRest (by rw [hRunBind, hRun]) hTaken ?_
    intro rest' hLength hNext
    rw [hRunBind]
    exact hLike rest' hLength hNext

/-! ## Taking single tokens -/

/-- Taking the next token, where there is one. -/
theorem Reads.advance {f f' : Unit → Reading β} {l : Lexeme} {rest : List Lexeme}
    (hRest : c.rest = l :: rest)
    (h : Reads (length - 1) (f ()) (f' ()) (fun b later => R b (l :: later))
      (fun ts => Viable (l.token :: ts)) ⟨rest, l.span.stop⟩) :
    Reads length (advance >>= f) (advance >>= f') R Viable c := by
  have hTaken : Reads length Reading.advance Reading.advance (fun _ row => row = [l])
      (fun _ => False) c := by
    refine .takes () [l] rest hRest ?_ rfl fun rest' _ _ => rfl
    obtain ⟨tokens, reached⟩ := c
    obtain rfl : tokens = l :: rest := hRest
    rfl
  refine hTaken.bind ?_ fun _ _ _ => False.elim
  rintro ⟨⟩ row rest' hRest' rfl
  obtain rfl : rest = rest' := (List.cons.inj (hRest.symm.trans hRest')).2
  exact h

/-- What is done if a token comes next, and what is done if not. -/
theorem Reads.ifNext {g g' k k' : Reading β} {t : Token}
    (hYes : ∀ l rest, c.rest = l :: rest → l.token = t →
      Reads length k k' (fun b row => row ≠ [] ∧ R b row) Viable c)
    (hNo : (∀ l ∈ c.rest.head?, l.token ≠ t) → Reads length g g' R Viable c) :
    Reads length (Reading.peek >>= fun next => if next = some t then k else g)
      (Reading.peek >>= fun next => if next = some t then k' else g') R Viable c := by
  by_cases hNext : c.rest.head?.map (·.token) = some t
  · obtain ⟨l, hl, hToken⟩ := Option.map_eq_some_iff.mp hNext
    obtain ⟨rest, hRest⟩ := List.head?_eq_some_iff.mp hl
    refine Reads.imp (P := fun b row => row ≠ [] ∧ R b row) ?_ (fun _ _ _ _ => And.right)
      fun _ _ _ => id
    refine Reads.peek (fun _ h => absurd rfl h.1) ?_
    rw [if_pos hNext, if_pos hNext]
    exact hYes l rest hRest hToken
  · -- At the end no token comes next either.
    refine Reads.peek (fun _ _ => by rw [if_neg hNext, if_neg (by simp)]) ?_
    rw [if_neg hNext, if_neg hNext]
    refine hNo fun l hl hToken => hNext ?_
    rw [Option.mem_def.mp hl, Option.map_some, hToken]

theorem accept_bind (f : Bool → Reading β) :
    accept t >>= f = Reading.peek >>= fun next =>
      if next = some t then Reading.advance >>= fun _ => f true else f false := by
  rw [accept, bind_assoc]
  refine congrArg (Reading.peek >>= ·) (funext fun next => ?_)
  by_cases hNext : next = some t
  · rw [if_pos hNext, if_pos hNext, bind_assoc]
    rfl
  · rw [if_neg hNext, if_neg hNext]
    rfl

/-- Where the token stands, it is taken; where not, what is done without it is done. -/
theorem Reads.accept {f f' : Bool → Reading β}
    (hYes : ∀ l rest, c.rest = l :: rest → l.token = t →
      Reads (length - 1) (f true) (f' true) (fun b later => R b (l :: later))
        (fun ts => Viable (t :: ts)) ⟨rest, l.span.stop⟩)
    (hNo : (∀ l ∈ c.rest.head?, l.token ≠ t) →
      Reads length (f false) (f' false) R Viable c) :
    Reads length (accept t >>= f) (accept t >>= f') R Viable c := by
  rw [accept_bind, accept_bind]
  refine Reads.ifNext (fun l rest hRest hToken => Reads.advance hRest ?_) hNo
  rw [hToken]
  exact (hYes l rest hRest hToken).imp (fun _ _ _ _ hb => ⟨by simp, hb⟩) fun _ _ _ => id

/-- Where the token has to stand. -/
theorem Reads.expect {f f' : Unit → Reading β} (hViable : Viable [])
    (h : ∀ l rest, c.rest = l :: rest → l.token = t →
      Reads (length - 1) (f ()) (f' ()) (fun b later => R b (l :: later))
        (fun ts => Viable (t :: ts)) ⟨rest, l.span.stop⟩) :
    Reads length (expect t >>= f) (expect t >>= f') R Viable c := by
  -- A token that is expected is one that is accepted, or else the reader is stuck.
  have hExpect : Reads length (Reading.expect t) (Reading.expect t)
      (fun _ row => ∃ l, row = [l] ∧ l.token = t) (fun ts => ts = []) c := by
    have hAccept : Reads length (Reading.accept t >>= fun b => if !b then stuck else pure ())
        (Reading.accept t >>= fun b => if !b then stuck else pure ())
        (fun _ row => ∃ l, row = [l] ∧ l.token = t) (fun ts => ts = []) c :=
      Reads.accept (fun l rest _ hl => reads_pure ⟨l, rfl, hl⟩) fun _ => reads_stuck rfl
    exact hAccept
  refine hExpect.bind ?_ ?_
  · rintro ⟨⟩ row rest hRest ⟨l, rfl, hl⟩
    refine (h l rest hRest hl).imp (fun _ _ _ _ => id) ?_
    intro row _ _ hRow
    show Viable (l.token :: tokensOf row)
    rwa [hl]
  · intro row rest _ hRow
    rw [hRow]
    exact hViable

theorem Reads.expectMark {f f' : Unit → Reading β} {mark : Mark} (hViable : Viable [])
    (h : ∀ l rest, c.rest = l :: rest → l.token = .mark mark →
      Reads (length - 1) (f ()) (f' ()) (fun b later => R b (l :: later))
        (fun ts => Viable (.mark mark :: ts)) ⟨rest, l.span.stop⟩) :
    Reads length (expectMark mark >>= f) (expectMark mark >>= f') R Viable c :=
  Reads.expect hViable h

/-- A name is taken with its place. -/
theorem reads_identifier (hViable : Viable []) :
    Reads length identifier identifier Identifier.Placed Viable c := by
  unfold identifier
  refine Reads.place (fun _ h => absurd rfl h.ne_nil) ?_
  refine Reads.peek (fun _ h => absurd rfl h.ne_nil) ?_
  cases hRest : c.rest with
  | nil => exact reads_stuck hViable
  | cons l rest =>
    rw [List.head?_cons, Option.map_some]
    cases hToken : l.token with
    | identifier name =>
      refine Reads.advance hRest (Reads.spanFrom (reads_pure ⟨l, rfl, hToken, ?_⟩))
      exact span_eq_spanOf (show c.rest = [l] ++ rest from hRest) (by simp) []
    | _ => exact reads_stuck hViable

/-- A whole number is taken. -/
theorem reads_natural (hViable : Viable []) :
    Reads length natural natural IsNatural Viable c := by
  unfold natural
  refine Reads.peek (fun _ h => absurd rfl h.ne_nil) ?_
  cases hRest : c.rest with
  | nil => exact reads_stuck hViable
  | cons l rest =>
    rw [List.head?_cons, Option.map_some]
    cases hToken : l.token with
    | int n => exact Reads.advance hRest (reads_pure ⟨l, rfl, hToken⟩)
    | _ => exact reads_stuck hViable

/-! ## Bounds -/

/-- An action is compared from every place with few enough tokens left, on rows up to a length. -/
def ReadsUpTo {α : Type} (left length : Nat) (m m' : Reading α) (Q : α → List Lexeme → Prop)
    (Viable : List Token → Prop) : Prop :=
  ∀ (c : Cursor) (k : Nat), c.rest.length ≤ left → k ≤ length → Reads k m m' Q Viable c

/-- On rows without tokens the second action matters only where nothing is taken. -/
theorem Reads.of_zero {m'' : Reading α} (h : Reads 0 m m' Q Viable c)
    (hSame : ∀ a, Q a [] → m''.run ⟨[], c.reached⟩ = m'.run ⟨[], c.reached⟩) :
    Reads 0 m m'' Q Viable c := by
  cases h with
  | stops row rest hRest hRun hStop _ =>
    refine .stops row rest hRest hRun hStop fun t rest' _ hLength => absurd hLength ?_
    simp
  | takes a row rest hRest hRun hTaken hLike =>
    refine .takes a row rest hRest hRun hTaken fun rest' hLength hNext => ?_
    have hNone := List.eq_nil_of_length_eq_zero (Nat.le_zero.mp hLength)
    obtain ⟨rfl, rfl⟩ := List.append_eq_nil_iff.mp hNone
    exact (hSame a hTaken).trans (hLike [] hLength hNext)

/-- Rows up to a length call for a second bound above zero, but for where nothing is taken. -/
theorem Reads.of_succ {F : Nat → Reading α} {n : Nat}
    (hSame : ∀ a, Q a [] → (F 0).run ⟨[], c.reached⟩ = (F 1).run ⟨[], c.reached⟩)
    (h : ∀ n, length ≤ n + 1 → Reads length m (F (n + 1)) Q Viable c) (hLength : length ≤ n) :
    Reads length m (F n) Q Viable c := by
  cases n with
  | succ n => exact h n hLength
  | zero =>
    obtain rfl : length = 0 := Nat.le_zero.mp hLength
    exact (h 0 (Nat.zero_le 1)).of_zero hSame

/-- A reader that is bound by the tokens that are left. -/
theorem Reads.remaining {F F' : Nat → Reading β}
    (h : ∀ k n, k ≤ length → k ≤ n → Reads k (F c.rest.length) (F' n) R Viable c) :
    Reads length (remaining >>= F) (remaining >>= F') R Viable c := by
  have hRunBind : ∀ (F : Nat → Reading β) (c : Cursor),
      (Reading.remaining >>= F).run c = (F c.rest.length).run c := fun F c => rfl
  cases h 0 0 (Nat.zero_le length) (Nat.le_refl 0) with
  | stops row rest hRest hRun hStop _ =>
    refine .stops row rest hRest hRun hStop ?_
    intro t rest' ht hLength
    rw [hRunBind]
    -- With another bound the first action stops where it did.
    cases h _ (row ++ t :: rest').length hLength (Nat.le_refl _) with
    | takes a row' rest'' _ hRun' _ _ => exact absurd (hRun.symm.trans hRun') (by simp)
    | stops row' rest'' hRest' hRun' _ hLike =>
      obtain rfl : rest = rest'' := Except.error.inj (hRun.symm.trans hRun')
      obtain rfl : row = row' := List.append_cancel_right (hRest.symm.trans hRest')
      exact hLike t rest' ht (Nat.le_refl _)
  | takes b row rest hRest hRun hTaken _ =>
    refine .takes b row rest hRest hRun hTaken ?_
    intro rest' hLength hNext
    rw [hRunBind]
    cases h _ (row ++ rest').length hLength (Nat.le_refl _) with
    | stops row' rest'' _ hRun' _ _ => exact absurd (hRun.symm.trans hRun') (by simp)
    | takes b' row' rest'' hRest' hRun' _ hLike =>
      have hSame := Except.ok.inj (hRun.symm.trans hRun')
      obtain ⟨rfl, hCursor⟩ := Prod.mk.inj hSame
      obtain rfl : rest = rest'' := congrArg Cursor.rest hCursor
      obtain rfl : row = row' := List.append_cancel_right (hRest.symm.trans hRest')
      exact hLike rest' (Nat.le_refl _) hNext

/-! ## Beginnings -/

/-- A row that something written begins with. -/
def Begins {α : Type} (written : α → List Token → Prop) (ts : List Token) : Prop :=
  ∃ a later, written a (ts ++ later)

/-- Written items with commas between them up to a closing mark. -/
def EnclosedOf {α : Type} (closing : Mark) (written : α → List Token → Prop) (as : List α)
    (ts : List Token) : Prop := ∃ rows, List.Forall₂ written as rows ∧ Enclosed closing rows ts

/-- Written items with commas between them. -/
def SeparatedOf {α : Type} (written : α → List Token → Prop) (as : List α) (ts : List Token) :
    Prop := ∃ rows, List.Forall₂ written as rows ∧ Separated rows ts

section Beginnings

variable {W : α → List Token → Prop} {W' : β → List Token → Prop} {a : α} {ts us : List Token}
  {closing : Mark}

theorem begins_of_written (h : W a ts) : Begins W ts := ⟨a, [], by rwa [List.append_nil]⟩

/-- What stands around something written stands around its beginnings. -/
theorem Begins.map (h : Begins W ts) (before after : List Token)
    (hW : ∀ a later, W a (ts ++ later) → ∃ b, W' b (before ++ (ts ++ later) ++ after)) :
    Begins W' (before ++ ts) := by
  obtain ⟨a, later, ha⟩ := h
  obtain ⟨b, hb⟩ := hW a later ha
  refine ⟨b, later ++ after, ?_⟩
  rwa [List.append_assoc, ← List.append_assoc ts, ← List.append_assoc]

theorem begins_enclosed : Begins (EnclosedOf closing W) [] :=
  ⟨[], [.mark closing], [], .nil, .close⟩

theorem Begins.enclosed (h : Begins W ts) : Begins (EnclosedOf closing W) ts :=
  h.map [] [.mark closing] fun a later ha => ⟨[a], [ts ++ later], .cons ha .nil, .last _⟩

theorem Begins.enclosed_more (h : Begins (EnclosedOf closing W) us) (ha : W a ts) :
    Begins (EnclosedOf closing W) (ts ++ .mark .comma :: us) := by
  obtain ⟨as, later, rows, hRows, hRow⟩ := h
  refine ⟨a :: as, later, ts :: rows, .cons ha hRows, ?_⟩
  rw [List.append_assoc]
  exact .more ts hRow

theorem Begins.separated (h : Begins W ts) : Begins (SeparatedOf W) ts := by
  obtain ⟨a, later, ha⟩ := h
  exact ⟨[a], later, [ts ++ later], .cons ha .nil, .last _⟩

theorem Begins.separated_more (h : Begins (SeparatedOf W) us) (ha : W a ts) :
    Begins (SeparatedOf W) (ts ++ .mark .comma :: us) := by
  obtain ⟨as, later, rows, hRows, hRow⟩ := h
  refine ⟨a :: as, later, ts :: rows, .cons ha hRows, ?_⟩
  rw [List.append_assoc]
  exact .more ts hRow

end Beginnings

/-! ## Lists -/

section Lists

variable {item item' : Reading α} {left : Nat} {W : α → List Token → Prop}

/-- Items with commas between them are taken one after the other. -/
theorem reads_itemsWithin (hItem : ReadsUpTo left length item item' P (Begins W))
    (hSome : ∀ a, ¬ P a []) (hWritten : ∀ a row, P a row → W a (tokensOf row))
    (hStart : Begins W []) (n n' : Nat) {k : Nat} (hLeft : c.rest.length ≤ left)
    (hn : c.rest.length ≤ n) (hk : k ≤ length) (hn' : k ≤ n') :
    Reads k (itemsWithin item n) (itemsWithin item' n') (fun as row => ∃ rows,
      List.Forall₂ P as rows ∧ Lexeme.Separated rows row) (Begins (SeparatedOf W)) c := by
  induction n generalizing c k n' with
  | zero =>
    exact reads_exhausted hn hStart.separated
  | succ n ih =>
    refine Reads.of_succ (F := itemsWithin item') ?_ (fun n' hn' => ?_) hn'
    · -- A first item is never missing.
      rintro as ⟨rows, hRows, hRow⟩
      obtain ⟨item, hRow⟩ := hRow.of_nil
      obtain ⟨a, as, ha, -, -⟩ := List.forall₂_cons_right_iff.mp (hRow ▸ hRows)
      exact absurd ha (hSome a)
    · unfold itemsWithin
      refine (hItem c k hLeft hk).bind (fun a row rest hRest ha => ?_) fun _ _ _ => Begins.separated
      -- An item takes a token at least, so that what is left gets shorter with each.
      have hRowSome : 0 < row.length := by
        rw [List.length_pos_iff]
        rintro rfl
        exact hSome a ha
      rw [hRest, List.length_append] at hLeft hn
      refine Reads.accept (fun l rest' hRest' hComma => ?_) fun _ => ?_
      · obtain rfl : rest = l :: rest' := hRest'
        rw [List.length_cons] at hLeft hn
        have hLater := @ih ⟨rest', l.span.stop⟩ n' (k - row.length - 1)
          (show rest'.length ≤ left by omega) (show rest'.length ≤ n by omega) (by omega) (by omega)
        refine Reads.map (hLater.imp ?_ ?_)
        · rintro as later rest'' - ⟨rows, hRows, hRow⟩
          exact ⟨row :: rows, .cons ha hRows, .more row hComma hRow⟩
        · exact fun later _ _ hLater => hLater.separated_more (hWritten a row ha)
      · refine reads_pure ⟨[row], .cons ha .nil, ?_⟩
        rw [List.append_nil]
        exact .last row

theorem reads_items (hItem : ReadsUpTo left length item item' P (Begins W))
    (hSome : ∀ a, ¬ P a []) (hWritten : ∀ a row, P a row → W a (tokensOf row))
    (hStart : Begins W []) (hLeft : c.rest.length ≤ left) {k : Nat} (hk : k ≤ length) :
    Reads k (items item) (items item') (fun as row => ∃ rows,
      List.Forall₂ P as rows ∧ Lexeme.Separated rows row) (Begins (SeparatedOf W)) c := by
  unfold items
  exact Reads.remaining fun k' n' hk' hn' => reads_itemsWithin hItem hSome hWritten hStart
    c.rest.length n' hLeft (Nat.le_refl _) (Nat.le_trans hk' hk) hn'

/-- Items up to a closing mark are taken one after the other, and the mark with them. -/
theorem reads_closedWithin {closing : Mark}
    (hItem : ReadsUpTo left length item item' P (Begins W)) (hSome : ∀ a, ¬ P a [])
    (hWritten : ∀ a row, P a row → W a (tokensOf row)) (n n' : Nat) {k : Nat}
    (hLeft : c.rest.length ≤ left) (hn : c.rest.length ≤ n) (hk : k ≤ length) (hn' : k ≤ n') :
    Reads k (closedWithin item closing n) (closedWithin item' closing n') (fun as row => ∃ rows,
      List.Forall₂ P as rows ∧ Lexeme.Enclosed closing rows row)
      (Begins (EnclosedOf closing W)) c := by
  induction n generalizing c k n' with
  | zero =>
    exact reads_exhausted hn begins_enclosed
  | succ n ih =>
    refine Reads.of_succ (F := closedWithin item' closing) ?_ (fun n' hn' => ?_) hn'
    · rintro as ⟨rows, -, hRow⟩
      exact absurd rfl hRow.ne_nil
    · unfold closedWithin
      -- The list may close at once; otherwise an item comes first.
      refine Reads.accept (fun l rest hRest hClose => ?_) fun _ => ?_
      · exact reads_pure ⟨[], .nil, .close hClose⟩
      refine (hItem c k hLeft hk).bind (fun a row rest hRest ha => ?_) fun _ _ _ => Begins.enclosed
      have hRowSome : 0 < row.length := by
        rw [List.length_pos_iff]
        rintro rfl
        exact hSome a ha
      rw [hRest, List.length_append] at hLeft hn
      refine Reads.accept (fun l rest' hRest' hComma => ?_) fun _ => ?_
      · obtain rfl : rest = l :: rest' := hRest'
        rw [List.length_cons] at hLeft hn
        have hLater := @ih ⟨rest', l.span.stop⟩ n' (k - row.length - 1)
          (show rest'.length ≤ left by omega) (show rest'.length ≤ n by omega) (by omega) (by omega)
        refine Reads.map (hLater.imp ?_ ?_)
        · rintro as later rest'' - ⟨rows, hRows, hRow⟩
          exact ⟨row :: rows, .cons ha hRows, .more row hComma hRow⟩
        · exact fun later _ _ hLater => hLater.enclosed_more (hWritten a row ha)
      · refine Reads.expectMark ?_ fun l rest' _ hClose => ?_
        · rw [List.append_nil]
          exact (begins_of_written (hWritten a row ha)).enclosed
        · exact reads_pure ⟨[row], .cons ha .nil, .last row hClose⟩

theorem reads_closed {closing : Mark} (hItem : ReadsUpTo left length item item' P (Begins W))
    (hSome : ∀ a, ¬ P a []) (hWritten : ∀ a row, P a row → W a (tokensOf row))
    (hLeft : c.rest.length ≤ left) {k : Nat} (hk : k ≤ length) :
    Reads k (closed item closing) (closed item' closing) (fun as row => ∃ rows,
      List.Forall₂ P as rows ∧ Lexeme.Enclosed closing rows row)
      (Begins (EnclosedOf closing W)) c := by
  unfold closed
  exact Reads.remaining fun k' n' hk' hn' => reads_closedWithin hItem hSome hWritten
    c.rest.length n' hLeft (Nat.le_refl _) (Nat.le_trans hk' hk) hn'

end Lists

end ArrayEquations.Script.Reading

import ArrayEquations.Proofs.WrittenScripts
import ArrayEquations.Script.Parser

/-!
# ArrayEquations — taking tokens

When an action takes exactly a row of tokens from the front, whatever comes behind it. What comes
next may matter: an action that looks ahead stops only where the next token is none of those that
it goes on with. A row is taken piece by piece along the steps of an action.

## Main definitions

* `Takes` — the action takes exactly the row, and its result is as said.
* `Stops` — a row that may come behind an action.

## Main results

* `Takes.bind` — one action after another.
* `takes_items`, `takes_closed` — lists of items.
-/

namespace ArrayEquations.Script.Reading

/-- The action takes exactly the row from the front, if the token behind it is none of those that
it goes on with, and its result is as said. -/
def Takes {α : Type} (m : Reading α) (ts : List Token) (goesOn : Token → Prop) (Q : α → Prop) :
    Prop :=
  ∀ (row rest : List Lexeme) (reached : Nat), row.map (·.token) = ts →
    (∀ t ∈ rest.head?, ¬ goesOn t.token) →
      ∃ a reached', m.run ⟨row ++ rest, reached⟩ = .ok (a, ⟨rest, reached'⟩) ∧ Q a

/-- The tokens that an action goes on with which does not look ahead. -/
def Never (_ : Token) : Prop := False

/-- Behind an action that goes on with some tokens comes a row that begins with another one, or
nothing, where what comes behind that is no such token either. -/
def Stops (goesOn : Token → Prop) (ts : List Token) (later : Token → Prop) : Prop :=
  (∀ t ∈ ts.head?, ¬ goesOn t) ∧ (ts = [] → ∀ t, goesOn t → later t)

variable {α β : Type} {m : Reading α} {f : α → Reading β} {ts us : List Token} {t : Token}
  {p q : Token → Prop} {P Q : α → Prop} {R : β → Prop}

theorem stops_never : Stops Never ts q := ⟨fun _ _ => id, fun _ _ => False.elim⟩

theorem stops_cons (h : ¬ p t) : Stops p (t :: ts) q :=
  ⟨fun _ hu => Option.some.inj hu ▸ h, fun hNil => absurd hNil (List.cons_ne_nil t ts)⟩

theorem stops_nil (h : ∀ t, p t → q t) : Stops p [] q :=
  ⟨fun _ ht => absurd ht (by simp), fun _ => h⟩

/-! ## Steps -/

/-- **One action after another** takes one row after the other. -/
theorem Takes.bind (h : Takes m ts p P) (hf : ∀ a, P a → Takes (f a) us q R)
    (hStops : Stops p us q) : Takes (m >>= f) (ts ++ us) q R := by
  intro row rest reached hRow hRest
  obtain ⟨first, second, rfl, hFirst, hSecond⟩ := List.map_eq_append_iff.mp hRow
  -- What comes behind the first row is the second one, or the rest if that is empty.
  have hNext : ∀ t ∈ (second ++ rest).head?, ¬ p t.token := by
    cases second with
    | nil =>
      obtain rfl : us = [] := by simpa using hSecond.symm
      exact fun t ht hp => hRest t ht (hStops.2 rfl _ hp)
    | cons t second =>
      intro t' ht'
      obtain rfl := Option.some.inj ht'
      exact hStops.1 _ (by rw [← hSecond]; rfl)
  obtain ⟨a, reached₁, hRun, ha⟩ := h first (second ++ rest) reached hFirst hNext
  obtain ⟨b, reached₂, hRun', hb⟩ := hf a ha second rest reached₁ hSecond hRest
  refine ⟨b, reached₂, ?_, hb⟩
  rw [List.append_assoc, StateT.run_bind, hRun]
  exact hRun'

/-- An action that does not look ahead, and another one after it. -/
theorem Takes.next (h : Takes m ts Never P) (hf : ∀ a, P a → Takes (f a) us q R) :
    Takes (m >>= f) (ts ++ us) q R := h.bind hf stops_never

/-- An action that takes one token, and another one after it. -/
theorem Takes.step (h : Takes m [t] Never P) (hf : ∀ a, P a → Takes (f a) us q R) :
    Takes (m >>= f) (t :: us) q R := h.next hf

/-- An action that does not look ahead, and another one that takes nothing more. -/
theorem Takes.last (h : Takes m ts Never P) (hf : ∀ a, P a → Takes (f a) [] q R) :
    Takes (m >>= f) ts q R := List.append_nil ts ▸ h.next hf

theorem Takes.imp (h : Takes m ts p P) (hImp : ∀ a, P a → Q a) (hStops : ∀ t, p t → q t) :
    Takes m ts q Q := by
  intro row rest reached hRow hRest
  obtain ⟨a, reached', hRun, ha⟩ := h row rest reached hRow fun t ht hp => hRest t ht (hStops _ hp)
  exact ⟨a, reached', hRun, hImp a ha⟩

theorem takes_pure {a : α} (h : P a) : Takes (pure a) [] p P := by
  intro row rest reached hRow _
  obtain rfl : row = [] := by simpa using hRow
  exact ⟨a, reached, rfl, h⟩

/-- What an action gives is passed on, changed. -/
theorem Takes.map {g : α → β} (h : Takes m ts p P) (hg : ∀ a, P a → R (g a)) :
    Takes (m >>= fun a => pure (g a)) ts p R :=
  List.append_nil ts ▸ h.bind (fun a ha => takes_pure (hg a ha)) (stops_nil fun _ => id)

/-- An action that only looks at what is left. -/
theorem takes_look {look : Cursor → α} (hm : ∀ c, m.run c = .ok (look c, c))
    (h : ∀ row rest reached, row.map (·.token) = ts → (∀ t ∈ rest.head?, ¬ q t.token) →
      ∃ b reached', (f (look ⟨row ++ rest, reached⟩)).run ⟨row ++ rest, reached⟩ =
        .ok (b, ⟨rest, reached'⟩) ∧ R b) : Takes (m >>= f) ts q R := by
  intro row rest reached hRow hRest
  obtain ⟨b, reached', hRun, hb⟩ := h row rest reached hRow hRest
  refine ⟨b, reached', ?_, hb⟩
  rw [StateT.run_bind, hm]
  exact hRun

theorem Takes.place {f : Nat → Reading β} (h : ∀ n, Takes (f n) ts q R) :
    Takes (place >>= f) ts q R :=
  takes_look (fun _ => rfl) fun row rest reached => h _ row rest reached

theorem Takes.spanFrom {f : Span → Reading β} (start : Nat) (h : ∀ span, Takes (f span) ts q R) :
    Takes (spanFrom start >>= f) ts q R :=
  takes_look (fun _ => rfl) fun row rest reached => h _ row rest reached

/-- As many tokens are left as the row has, at least. -/
theorem Takes.remaining {f : Nat → Reading β} (h : ∀ n, ts.length ≤ n → Takes (f n) ts q R) :
    Takes (remaining >>= f) ts q R := by
  refine takes_look (fun _ => rfl) fun row rest reached hRow => ?_
  refine h _ ?_ row rest reached hRow
  rw [← hRow, List.length_map]
  simp

theorem Takes.peek {f : Option Token → Reading β} (h : Takes (f (some t)) (t :: ts) q R) :
    Takes (peek >>= f) (t :: ts) q R := by
  refine takes_look (fun _ => rfl) fun row rest reached hRow => ?_
  obtain ⟨l, row, rfl, rfl, rfl⟩ := List.map_eq_cons_iff.mp hRow
  exact h _ rest reached rfl

/-- Behind a row comes a token that the action does not go on with, or nothing. -/
theorem Takes.peek_end {f : Option Token → Reading β}
    (h : ∀ t, (∀ u ∈ t, ¬ q u) → Takes (f t) [] q R) : Takes (Reading.peek >>= f) [] q R := by
  refine takes_look (fun _ => rfl) fun row rest reached hRow hRest => ?_
  obtain rfl : row = [] := by simpa using hRow
  refine h _ ?_ [] rest reached rfl hRest
  intro u hu
  obtain ⟨l, hl, rfl⟩ := Option.map_eq_some_iff.mp hu
  exact hRest l hl

theorem takes_advance : Takes advance [t] Never fun _ => True := by
  intro row rest reached hRow _
  obtain ⟨l, row, rfl, -, hNil⟩ := List.map_eq_cons_iff.mp hRow
  obtain rfl : row = [] := by simpa using hNil
  exact ⟨(), _, rfl, trivial⟩

/-! ## Single tokens -/

/-- Where the token stands, what is done with it is done. -/
theorem Takes.accept {f : Bool → Reading β} (h : Takes (f true) ts q R) :
    Takes (accept t >>= f) (t :: ts) q R := by
  have hAccept : Takes (Reading.accept t) [t] Never (· = true) := by
    unfold Reading.accept
    refine Takes.peek ?_
    rw [if_pos rfl]
    exact takes_advance.last fun _ _ => takes_pure rfl
  exact hAccept.step fun b hb => hb ▸ h

/-- Where another token stands, what is done without it is done. -/
theorem Takes.decline {f : Bool → Reading β} (hStops : Stops (· = t) ts q)
    (h : Takes (f false) ts q R) : Takes (Reading.accept t >>= f) ts q R := by
  have hDecline : Takes (Reading.accept t) [] (· = t) (· = false) := by
    unfold Reading.accept
    refine Takes.peek_end fun u hu => ?_
    rw [if_neg fun hu' : u = some t => hu t hu' rfl]
    exact takes_pure rfl
  have hBoth : Takes (Reading.accept t >>= f) ([] ++ ts) q R :=
    hDecline.bind (fun b hb => hb ▸ h) hStops
  exact hBoth

theorem takes_expect : Takes (expect t) [t] Never fun _ => True :=
  Takes.accept (f := fun b => if !b then stuck else pure ()) (takes_pure trivial)

theorem takes_expectMark (m : Mark) : Takes (expectMark m) [.mark m] Never fun _ => True :=
  takes_expect

theorem takes_identifier (name : String) :
    Takes identifier [.identifier name] Never (·.name = name) := by
  unfold identifier
  refine Takes.place fun start => Takes.peek ?_
  exact takes_advance.last fun _ _ => Takes.spanFrom start fun span => takes_pure rfl

theorem takes_natural (n : Nat) : Takes natural [.int n] Never (· = n) := by
  unfold natural
  refine Takes.peek ?_
  exact takes_advance.last fun _ _ => takes_pure rfl

/-! ## Lists -/

variable {γ : Type} {item : Reading β} {written : γ → β → Prop} {as : List γ}
  {rows : List (List Token)} {fuel : Nat}

/-- The row is not empty and does not begin with the token. -/
def BeginsApart (t : Token) (row : List Token) : Prop := row ≠ [] ∧ ∀ u ∈ row.head?, u ≠ t

theorem BeginsApart.stops {row : List Token} (h : BeginsApart t row) (us : List Token) :
    Stops (· = t) (row ++ us) q := by
  obtain ⟨hNonempty, hHead⟩ := h
  obtain ⟨u, row, rfl⟩ := List.exists_cons_of_ne_nil hNonempty
  exact stops_cons (hHead u rfl)

/-- Lists of items that look the same look the same. -/
theorem map_eq_of_forall₂ {g : α → γ} {as bs : List α}
    (h : List.Forall₂ (fun a b => g b = g a) as bs) : bs.map g = as.map g := by
  induction h with
  | nil => rfl
  | cons hSame _ ih => rw [List.map_cons, List.map_cons, hSame, ih]

/-- Items with commas between them are taken one after the other. -/
theorem takes_itemsWithin (hRow : Separated rows ts)
    (h : List.Forall₂ (fun a row => row ≠ [] ∧ Takes item row p (written a)) as rows)
    (hComma : ¬ p (.mark .comma)) (hFuel : ts.length ≤ fuel) :
    Takes (itemsWithin item fuel) ts (fun t => p t ∨ t = .mark .comma)
      (List.Forall₂ written as) := by
  induction hRow generalizing as fuel with
  | last row =>
    obtain ⟨a, as, ⟨hNonempty, hItem⟩, hNil, rfl⟩ := List.forall₂_cons_right_iff.mp h
    obtain rfl := List.forall₂_nil_right_iff.mp hNil
    have hSome := List.length_pos_of_ne_nil hNonempty
    obtain ⟨fuel, rfl⟩ := Nat.exists_eq_add_one.mpr (Nat.lt_of_lt_of_le hSome hFuel)
    -- Without a comma behind it, an item is the last one.
    have hTaken : Takes (itemsWithin item (fuel + 1)) (row ++ [])
        (fun t => p t ∨ t = .mark .comma) (List.Forall₂ written [a]) := by
      unfold itemsWithin
      refine hItem.bind (fun b hb => ?_) (stops_nil fun _ => Or.inl)
      exact Takes.decline (stops_nil fun _ => Or.inr) (takes_pure (.cons hb .nil))
    rwa [List.append_nil] at hTaken
  | more row _ ih =>
    obtain ⟨a, as, ⟨-, hItem⟩, hItems, rfl⟩ := List.forall₂_cons_right_iff.mp h
    rw [List.length_append, List.length_cons] at hFuel
    obtain ⟨fuel, rfl⟩ := Nat.exists_eq_add_one.mpr (show 0 < fuel by omega)
    unfold itemsWithin
    refine hItem.bind (fun b hb => ?_) (stops_cons hComma)
    refine Takes.accept ?_
    exact (ih hItems (show _ ≤ fuel by omega)).map fun bs hbs => List.Forall₂.cons hb hbs

theorem takes_items (hRow : Separated rows ts)
    (h : List.Forall₂ (fun a row => row ≠ [] ∧ Takes item row p (written a)) as rows)
    (hComma : ¬ p (.mark .comma)) :
    Takes (items item) ts (fun t => p t ∨ t = .mark .comma) (List.Forall₂ written as) := by
  unfold items
  exact Takes.remaining fun n hn => takes_itemsWithin hRow h hComma hn

/-- Items up to a closing mark are taken one after the other, and the mark with them. -/
theorem takes_closedWithin {closing : Mark} (hRow : Enclosed closing rows ts)
    (h : List.Forall₂ (fun a row => BeginsApart (.mark closing) row ∧
      Takes item row p (written a)) as rows)
    (hComma : ¬ p (.mark .comma)) (hClosing : ¬ p (.mark closing))
    (hApart : closing ≠ .comma) (hFuel : ts.length ≤ fuel) :
    Takes (closedWithin item closing fuel) ts Never (List.Forall₂ written as) := by
  induction hRow generalizing as fuel with
  | close =>
    obtain rfl := List.forall₂_nil_right_iff.mp h
    obtain ⟨fuel, rfl⟩ := Nat.exists_eq_add_one.mpr (show 0 < fuel from hFuel)
    unfold closedWithin
    exact Takes.accept (takes_pure .nil)
  | last row =>
    obtain ⟨a, as, ⟨hBegins, hItem⟩, hNil, rfl⟩ := List.forall₂_cons_right_iff.mp h
    obtain rfl := List.forall₂_nil_right_iff.mp hNil
    rw [List.length_append, List.length_singleton] at hFuel
    obtain ⟨fuel, rfl⟩ := Nat.exists_eq_add_one.mpr (show 0 < fuel by omega)
    unfold closedWithin
    -- An item does not begin with the closing mark, so that the reader goes on with it.
    refine Takes.decline (hBegins.stops _) ?_
    refine hItem.bind (fun b hb => ?_) (stops_cons hClosing)
    refine Takes.decline (stops_cons fun hMark => hApart (Token.mark.inj hMark)) ?_
    exact (takes_expectMark closing).map fun _ _ => .cons hb .nil
  | more row _ ih =>
    obtain ⟨a, as, ⟨hBegins, hItem⟩, hItems, rfl⟩ := List.forall₂_cons_right_iff.mp h
    rw [List.length_append, List.length_cons] at hFuel
    obtain ⟨fuel, rfl⟩ := Nat.exists_eq_add_one.mpr (show 0 < fuel by omega)
    unfold closedWithin
    refine Takes.decline (hBegins.stops _) ?_
    refine hItem.bind (fun b hb => ?_) (stops_cons hComma)
    refine Takes.accept ?_
    exact (ih hItems (show _ ≤ fuel by omega)).map fun bs hbs => List.Forall₂.cons hb hbs

theorem takes_closed {closing : Mark} (hRow : Enclosed closing rows ts)
    (h : List.Forall₂ (fun a row => BeginsApart (.mark closing) row ∧
      Takes item row p (written a)) as rows)
    (hComma : ¬ p (.mark .comma)) (hClosing : ¬ p (.mark closing))
    (hApart : closing ≠ .comma) :
    Takes (closed item closing) ts Never (List.Forall₂ written as) := by
  unfold closed
  exact Takes.remaining fun n hn => takes_closedWithin hRow h hComma hClosing hApart hn

/-- A list of extents or axes is taken, and the brackets with it. -/
theorem takes_dims {ns : List Nat} (h : Enclosed .rightBracket (ns.map fun n => [.int n]) ts) :
    Takes dims (.mark .leftBracket :: ts) Never (· = ns) := by
  have hItems : List.Forall₂ (fun n row => BeginsApart (.mark .rightBracket) row ∧
      Takes natural row Never (· = n)) ns (ns.map fun n => [.int n]) :=
    List.forall₂_map_right_iff.mpr (List.forall₂_same.mpr fun n _ =>
      ⟨⟨by simp, by simp⟩, takes_natural n⟩)
  unfold dims
  refine (takes_expectMark .leftBracket).next fun _ _ => ?_
  refine (takes_closed h hItems id id (by decide)).imp ?_ fun _ => id
  intro bs hbs
  have hSame : List.Forall₂ (· = ·) bs ns := List.Forall₂.flip hbs
  rwa [List.forall₂_eq_eq_eq] at hSame

end ArrayEquations.Script.Reading

import FlatModel.Proofs.FragmentTokens

/-!
# Readers of tokens

A reader takes one item from the front of a row of tokens.  Whatever the items are, the arguments of a
call are items with commas between them and a parenthesis behind them, and a text holds one item if
nothing is left of it.

* `readArguments` — the arguments, given a reader of parts of the tokens; what it leaves is shorter
  than what it was given.
* `Token.Reader` — a reader that takes no parenthesis for the beginning of an item;
  `Token.Reader.arguments?`, `Token.Reader.read?` — the arguments at the front, and a whole text.
* `Token.Reader.ReadsArgument`, `ReadsArguments` — tokens that are read as an argument or as arguments,
  whatever follows them; `ReadsArgument.last`, `ReadsArgument.comma` — how they are put together.
* `Token.Reader.AreArguments` — texts that are read as arguments;
  `exists_areArguments` — if each of them is read as an argument.
-/

namespace FlatModel.Fragment

/-- What was read, and fewer than `n` tokens that follow it. -/
abbrev Parsed (α : Type) (n : Nat) := {p : α × List Token // p.2.length < n}

/-- Arguments with commas between them and the parenthesis behind the last one.  Only parts of the
tokens are given to the reader of an argument. -/
def readArguments {α : Type} (ts : List Token)
    (read : (us : List Token) → us.length ≤ ts.length → Option (Parsed α us.length)) :
    Option (Parsed (List α) ts.length) :=
  match ts, read with
  | .mark ')' :: rest, _ => some ⟨([], rest), Nat.lt_succ_self _⟩
  | ts, read =>
      match read ts (Nat.le_refl _) with
      | some ⟨(a, .mark ')' :: rest), h⟩ => some ⟨([a], rest), Nat.lt_of_succ_lt h⟩
      | some ⟨(a, .mark ',' :: rest), h⟩ =>
          have hlt : rest.length < ts.length := Nat.lt_of_succ_lt h
          match readArguments rest fun us hus => read us (Nat.le_trans hus (Nat.le_of_lt hlt)) with
          | none => none
          | some ⟨(args, rest'), h'⟩ => some ⟨(a :: args, rest'), Nat.lt_trans h' hlt⟩
      | _ => none
termination_by ts.length

/-- A reader of one item at the front of a row of tokens.  No item begins with a parenthesis that
closes, so the end of arguments is not taken for one. -/
structure Token.Reader (α : Type) where
  /-- The item, and the tokens that follow it. -/
  read : (ts : List Token) → Option (Parsed α ts.length)
  /-- No item begins with a closing parenthesis. -/
  read_close : ∀ rest, read (.mark ')' :: rest) = none

namespace Token.Reader

variable {α : Type} (r : Token.Reader α)

/-- The item at the front of a row of tokens, and what follows. -/
def front? (ts : List Token) : Option (α × List Token) := (r.read ts).map Subtype.val

/-- The arguments at the front of a row of tokens, and what follows. -/
def arguments? (ts : List Token) : Option (List α × List Token) :=
  (readArguments ts fun us _ => r.read us).map Subtype.val

/-- The item of a text, if nothing is left of it. -/
def read? (text : String) : Option α :=
  match (Token.ofChars? text.toList).bind r.front? with
  | some (a, []) => some a
  | _ => none

/-! ## One step of each reader -/

section steps

variable {r} {a : α} {ts rest : List Token}

/-- No arguments. -/
theorem arguments?_close : r.arguments? (.mark ')' :: rest) = some ([], rest) := by
  rw [arguments?, readArguments]
  rfl

/-- What begins with an item does not begin with a closing parenthesis. -/
theorem ne_close (h : r.read ts ≠ none) (rest : List Token) : ts ≠ .mark ')' :: rest := by
  rintro rfl
  exact h (r.read_close rest)

/-- The last argument. -/
theorem arguments?_last (h : r.front? ts = some (a, .mark ')' :: rest)) :
    r.arguments? ts = some ([a], rest) := by
  obtain ⟨⟨p, hlt⟩, hread, rfl⟩ := Option.map_eq_some_iff.mp h
  rw [arguments?, readArguments]
  · rw [hread]
    rfl
  · exact fun rest' _ hts _ => ne_close (by rw [hread]; nofun) rest' hts

/-- An argument with further ones behind it. -/
theorem arguments?_comma (h : r.front? ts = some (a, .mark ',' :: rest)) :
    r.arguments? ts = (r.arguments? rest).map fun p => (a :: p.1, p.2) := by
  obtain ⟨⟨p, hlt⟩, hread, rfl⟩ := Option.map_eq_some_iff.mp h
  rw [arguments?, readArguments]
  · rw [hread, arguments?]
    simp only
    rcases readArguments rest _ with _ | ⟨⟨args, rest'⟩, h'⟩ <;> rfl
  · exact fun rest' _ hts _ => ne_close (by rw [hread]; nofun) rest' hts

end steps

/-! ## Arguments, whatever follows them -/

/-- The tokens are read as an argument, up to the comma or the parenthesis behind it. -/
def ReadsArgument (ts : List Token) (a : α) : Prop :=
  ∀ c : Char, c = ')' ∨ c = ',' → ∀ rest,
    r.front? (ts ++ .mark c :: rest) = some (a, .mark c :: rest)

/-- The tokens are read as arguments with the parenthesis behind them. -/
def ReadsArguments (ts : List Token) (args : List α) : Prop :=
  ∀ rest, r.arguments? (ts ++ rest) = some (args, rest)

/-- Texts with commas between them and a parenthesis behind them are read as arguments. -/
structure AreArguments (texts : List (List Char)) (ts : List Token) (args : List α) : Prop where
  /-- The tokens of the texts. -/
  spells : Spells ([',', ' '].intercalate texts ++ [')']) ts
  /-- The arguments that are read. -/
  reads : r.ReadsArguments ts args

variable {r} {a : α} {args : List α} {ts us : List Token}

/-- No arguments. -/
theorem readsArguments_nil : r.ReadsArguments [.mark ')'] [] := fun _ => arguments?_close

/-- The last argument. -/
theorem ReadsArgument.last (h : r.ReadsArgument ts a) :
    r.ReadsArguments (ts ++ [.mark ')']) [a] := by
  intro rest
  rw [List.append_assoc]
  exact arguments?_last (h ')' (.inl rfl) rest)

/-- An argument with further ones behind it. -/
theorem ReadsArgument.comma (h : r.ReadsArgument ts a) (hargs : r.ReadsArguments us args) :
    r.ReadsArguments (ts ++ .mark ',' :: us) (a :: args) := by
  intro rest
  rw [List.append_assoc, List.cons_append, arguments?_comma (h ',' (.inr rfl) _), hargs rest]
  rfl

/-- **Texts are read as arguments if each of them is read as one.** -/
theorem exists_areArguments {β : Type} {text : β → List Char} {value : β → α} : ∀ items : List β,
    (∀ item ∈ items, ∃ ts, Spells (text item) ts ∧ r.ReadsArgument ts (value item)) →
    ∃ ts, r.AreArguments (items.map text) ts (items.map value)
  | [], _ => ⟨_, Spells.nil.mark rfl, readsArguments_nil⟩
  | [item], h => by
      obtain ⟨ts, hspells, hreads⟩ := h item List.mem_cons_self
      refine ⟨_, ?_, hreads.last⟩
      rw [List.map_singleton, List.intercalate_singleton]
      exact hspells.closed rfl
  | item :: next :: rest, h => by
      obtain ⟨⟨ts, hspells, hreads⟩, hrest⟩ := List.forall_mem_cons.mp h
      obtain ⟨us, hmore⟩ := exists_areArguments (next :: rest) hrest
      refine ⟨_, ?_, hreads.comma hmore.reads⟩
      have htexts := hspells.marked (c := ',') rfl hmore.spells.blank
      rw [List.map_cons, List.map_cons, List.intercalate_cons_cons]
      simpa using htexts

/-- A text whose tokens are those of an item is read. -/
theorem read?_eq_some {text : String} (h : r.front? ts = some (a, []))
    (htext : Spells text.toList ts) : r.read? text = some a := by
  rw [read?, htext.ofChars?_eq, Option.bind_some, h]

end Token.Reader

end FlatModel.Fragment

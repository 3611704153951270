/-
  Sql.Parser — tokens as statements (`sql/parser.cc`).

  A recursive-descent parser.  It looks at one token at a time and goes on with
  the tokens behind it; the token list ends with `kEnd`.
-/
import Flotilla.Sql.Lexer

namespace Flotilla.Sql

/-! ## The parser. -/

inductive Failure where
  | status (s : Status)
  | pastEnd
  | loops

abbrev Parser := StateT (List Token) (Except Failure)

namespace Parser

variable {α β : Type}

def peek : Parser Token
  | [] => .error .pastEnd
  | token :: ts => .ok (token, token :: ts)

def advance : Parser Token
  | [] => .error .pastEnd
  | token :: ts => .ok (token, ts)

def error (expected : Bytes) : Parser α := do
  let token ← peek
  let got := if token.type = .atEnd then text "end of input"
    else text "'" ++ token.text ++ text "'"
  throw (.status (invalid (expected ++ text " at " ++ got ++ text " (offset " ++
    decimal token.pos ++ text ")")))

/-- `AcceptKeyword` and `AcceptSymbol`. -/
def accept (type : TokenType) (s : Bytes) : Parser Bool := do
  let token ← peek
  if token.type = type ∧ token.text = s then
    let _ ← advance
    return true
  else return false

def acceptKeyword (kw : String) : Parser Bool := accept .keyword (text kw)

def acceptSymbol (sym : String) : Parser Bool := accept .symbol (text sym)

def expectKeyword (kw : String) : Parser Unit := do
  if ← acceptKeyword kw then return () else error (text "expected " ++ text kw)

def expectSymbol (sym : String) : Parser Unit := do
  if ← acceptSymbol sym then return ()
  else error (text "expected '" ++ text sym ++ text "'")

def expectIdentifier : Parser Bytes := do
  let token ← peek
  if token.type = .identifier then
    let token ← advance
    return token.text
  else error (text "expected identifier")

def expectLiteral : Parser Value := do
  let token ← peek
  if token.type = .int then
    let token ← advance
    return .int token.intValue
  else if token.type = .string then
    let token ← advance
    return .text token.text
  else error (text "expected literal")

/-- `do { … } while (again)`: the body is given what the rounds before have pushed. -/
def doWhile (again : Parser Bool) (body : List α → Parser α) : Nat → List α → Parser (List α)
  | 0, _ => throw .loops
  | fuel + 1, acc => do
      let a ← body acc
      if ← again then doWhile again body fuel (acc ++ [a]) else return acc ++ [a]

def loop (again : Parser Bool) (body : List α → Parser α) : Parser (List α) :=
  fun ts => doWhile again body ts.length [] ts

def commaSeparated (body : Parser α) : Parser (List α) := loop (acceptSymbol ",") fun _ => body

def parseType : Parser ValueType := do
  if ← acceptKeyword "INT" then return .int
  else if ← acceptKeyword "TEXT" then return .text
  else error (text "expected INT or TEXT")

def parsePrimary : Parser Bool := do
  if ← acceptKeyword "PRIMARY" then
    expectKeyword "KEY"
    return true
  else return false

def parseColumn (columns : List ColumnDef) : Parser ColumnDef := do
  let name ← expectIdentifier
  let type ← parseType
  let isPk ← parsePrimary
  if columns.any (·.name = name) then throw (.status (invalid (text "duplicate column " ++ name)))
  else return ⟨name, type, isPk⟩

def parseCreate : Parser Statement := do
  expectKeyword "TABLE"
  let table ← expectIdentifier
  expectSymbol "("
  let columns ← loop (acceptSymbol ",") parseColumn
  expectSymbol ")"
  if columns.countP ColumnDef.isPk ≠ 1 then
    throw (.status (invalid (text "exactly one PRIMARY KEY column required")))
  else return .createTable ⟨table, columns⟩

def parseDrop : Parser Statement := do
  expectKeyword "TABLE"
  let table ← expectIdentifier
  return .dropTable ⟨table⟩

def parseColumnList : Parser (List Bytes) := do
  if ← acceptSymbol "(" then
    let columns ← commaSeparated expectIdentifier
    expectSymbol ")"
    return columns
  else return []

def parseRow : Parser (List Value) := do
  expectSymbol "("
  let row ← commaSeparated expectLiteral
  expectSymbol ")"
  return row

def parseInsert : Parser Statement := do
  expectKeyword "INTO"
  let table ← expectIdentifier
  let columns ← parseColumnList
  expectKeyword "VALUES"
  let rows ← commaSeparated parseRow
  return .insert ⟨table, columns, rows⟩

/-- The operators, as they are written. -/
def operators : List (Bytes × CompareOp) :=
  [(text "=", .eq), (text "!=", .ne), (text "<", .lt), (text "<=", .le), (text ">", .gt),
    (text ">=", .ge)]

def parseOp : Parser CompareOp := do
  let token ← peek
  if token.type = .symbol then
    let token ← advance
    match operators.lookup token.text with
    | some op => return op
    | none => error (text "expected comparison operator")
  else error (text "expected comparison")

def parsePredicate : Parser Predicate := do
  let column ← expectIdentifier
  let op ← parseOp
  let literal ← expectLiteral
  return ⟨column, op, literal⟩

def parseWhere : Parser (List Predicate) := do
  if ← acceptKeyword "WHERE" then loop (acceptKeyword "AND") fun _ => parsePredicate
  else return []

def parseProjection : Parser (List Bytes) := do
  if ← acceptSymbol "*" then return [] else commaSeparated expectIdentifier

def parseSelect : Parser Statement := do
  let columns ← parseProjection
  expectKeyword "FROM"
  let table ← expectIdentifier
  let preds ← parseWhere
  return .select ⟨table, columns, preds⟩

def parseSet : Parser (Bytes × Value) := do
  let column ← expectIdentifier
  expectSymbol "="
  let value ← expectLiteral
  return (column, value)

def parseUpdate : Parser Statement := do
  let table ← expectIdentifier
  expectKeyword "SET"
  let sets ← commaSeparated parseSet
  let preds ← parseWhere
  return .update ⟨table, sets, preds⟩

def parseDelete : Parser Statement := do
  expectKeyword "FROM"
  let table ← expectIdentifier
  let preds ← parseWhere
  return .delete ⟨table, preds⟩

def parseStatement : Parser Statement := do
  if ← acceptKeyword "CREATE" then parseCreate
  else if ← acceptKeyword "DROP" then parseDrop
  else if ← acceptKeyword "INSERT" then parseInsert
  else if ← acceptKeyword "SELECT" then parseSelect
  else if ← acceptKeyword "UPDATE" then parseUpdate
  else if ← acceptKeyword "DELETE" then parseDelete
  else error (text "expected CREATE, DROP, INSERT, SELECT, UPDATE, or DELETE")

def finish : Parser Unit := do
  let _ ← acceptSymbol ";"
  let token ← peek
  if token.type = .atEnd then return () else error (text "unexpected trailing input")

/-- `ParseStatement`, then `Finish`. -/
def parseTokens : Parser Statement := do
  let stmt ← parseStatement
  finish
  return stmt

end Parser

def parse (input : Bytes) : Except Failure Statement :=
  match lex input with
  | .error s => .error (.status s)
  | .ok ts => (Parser.parseTokens ts).map Prod.fst

/-! ## The grammar. -/

/-- What the grammar sees of a token. -/
inductive Lexeme where
  | keyword (s : Bytes)
  | identifier (s : Bytes)
  | literal (v : Value)
  | symbol (s : Bytes)
  | atEnd
  deriving DecidableEq

def Token.lexeme (t : Token) : Lexeme :=
  match t.type with
  | .keyword => .keyword t.text
  | .identifier => .identifier t.text
  | .int => .literal (.int t.intValue)
  | .string => .literal (.text t.text)
  | .symbol => .symbol t.text
  | .atEnd => .atEnd

namespace Lexeme

def kw (s : String) : Lexeme := .keyword (text s)

def sym (s : String) : Lexeme := .symbol (text s)

end Lexeme

open Lexeme (kw sym)

/-- One or more, with a separator between them. -/
def separated {α : Type} (sep : Lexeme) (f : α → List Lexeme) : List α → List Lexeme
  | [] => []
  | [a] => f a
  | a :: as => f a ++ sep :: separated sep f as

def ColumnDef.lexemes (col : ColumnDef) : List Lexeme :=
  [.identifier col.name, match col.type with | .int => kw "INT" | .text => kw "TEXT"] ++
    if col.isPk then [kw "PRIMARY", kw "KEY"] else []

def CompareOp.lexeme : CompareOp → Lexeme
  | .eq => sym "="
  | .ne => sym "!="
  | .lt => sym "<"
  | .le => sym "<="
  | .gt => sym ">"
  | .ge => sym ">="

def Predicate.lexemes (p : Predicate) : List Lexeme :=
  [.identifier p.column, p.op.lexeme, .literal p.literal]

def names (columns : List Bytes) : List Lexeme :=
  separated (sym ",") (fun name => [.identifier name]) columns

def rowLexemes (row : List Value) : List Lexeme :=
  sym "(" :: separated (sym ",") (fun v => [.literal v]) row ++ [sym ")"]

def setLexemes (set : Bytes × Value) : List Lexeme :=
  [.identifier set.1, sym "=", .literal set.2]

def whereLexemes : List Predicate → List Lexeme
  | [] => []
  | preds => kw "WHERE" :: separated (kw "AND") Predicate.lexemes preds

/-- The documented statements. -/
def Statement.lexemes : Statement → List Lexeme
  | .createTable stmt =>
      [kw "CREATE", kw "TABLE", .identifier stmt.table, sym "("] ++
        separated (sym ",") ColumnDef.lexemes stmt.columns ++ [sym ")"]
  | .dropTable stmt => [kw "DROP", kw "TABLE", .identifier stmt.table]
  | .insert stmt =>
      [kw "INSERT", kw "INTO", .identifier stmt.table] ++
        (if stmt.columns = [] then [] else sym "(" :: names stmt.columns ++ [sym ")"]) ++
        kw "VALUES" :: separated (sym ",") rowLexemes stmt.rows
  | .select stmt =>
      kw "SELECT" :: (if stmt.columns = [] then [sym "*"] else names stmt.columns) ++
        [kw "FROM", .identifier stmt.table] ++ whereLexemes stmt.where_
  | .update stmt =>
      [kw "UPDATE", .identifier stmt.table, kw "SET"] ++
        separated (sym ",") setLexemes stmt.sets ++ whereLexemes stmt.where_
  | .delete stmt => [kw "DELETE", kw "FROM", .identifier stmt.table] ++ whereLexemes stmt.where_

/-- What a derivation has beyond the types: columns that are distinct with one primary key, and no
empty list of rows, values or assignments. -/
def Statement.Derivable : Statement → Prop
  | .createTable stmt => Columns.Parsed stmt.columns
  | .insert stmt => stmt.rows ≠ [] ∧ ∀ row ∈ stmt.rows, row ≠ []
  | .update stmt => stmt.sets ≠ []
  | _ => True

/-! ## Rules for what is accepted. -/

namespace Parser

variable {α β : Type} {n : Nat} {p q : Parser α} {T : α → List Lexeme → Prop}

/-- What is returned stands in the relation to what was used, which is before `kEnd`. -/
def Outcome (T : α → List Lexeme → Prop) (ts : List Token) :
    Except Failure (α × List Token) → Prop
  | .ok r => ∃ used, ts.map Token.lexeme = used ++ r.2.map Token.lexeme ∧
      .atEnd ∉ used ∧ T r.1 used
  | .error e => ∃ s, e = .status s

/-- The outcome on at most `n` tokens, one of which is `kEnd`. -/
def Spec (n : Nat) (p : Parser α) (T : α → List Lexeme → Prop) : Prop :=
  ∀ ts : List Token, ts.length ≤ n → .atEnd ∈ ts.map Token.lexeme → Outcome T ts (p ts)

theorem Spec.mono {m : Nat} (h : Spec n p T) (hle : m ≤ n) : Spec m p T :=
  fun ts hlen => h ts (hlen.trans hle)

theorem Spec.imp {T' : α → List Lexeme → Prop} (h : Spec n p T) (himp : ∀ a u, T a u → T' a u) :
    Spec n p T' := by
  intro ts hlen hend
  have hresult := h ts hlen hend
  cases hp : p ts with
  | error e =>
    rw [hp] at hresult
    exact hresult
  | ok r =>
    rw [hp] at hresult
    obtain ⟨used, hused, hnot, hT⟩ := hresult
    exact ⟨used, hused, hnot, himp _ _ hT⟩

theorem Spec.pure {a : α} (h : T a []) : Spec n (pure a) T :=
  fun _ _ _ => ⟨[], rfl, not_mem_nil, h⟩

theorem Spec.fail {s : Status} : Spec n (throw (.status s) : Parser α) T :=
  fun _ _ _ => ⟨s, rfl⟩

theorem Spec.bind {q : α → Parser β} {T : β → List Lexeme → Prop} {R : α → List Lexeme → Prop}
    (hp : Spec n p R)
    (hq : ∀ a u, R a u → Spec (n - u.length) (q a) fun b v => T b (u ++ v)) :
    Spec n (p >>= q) T := by
  intro ts hlen hend
  have hfirst := hp ts hlen hend
  show Outcome T ts (p ts >>= fun r => q r.1 r.2)
  cases hresult : p ts with
  | error e =>
    rw [hresult] at hfirst
    exact hfirst
  | ok r =>
    rw [hresult] at hfirst
    obtain ⟨u, hu, hnot, hR⟩ := hfirst
    have hsize := congrArg List.length hu
    rw [length_append, length_map, length_map] at hsize
    have hrest : .atEnd ∈ r.2.map Token.lexeme := by
      rw [hu] at hend
      exact (mem_append.mp hend).resolve_left hnot
    have hsecond := hq r.1 u hR r.2 (by omega) hrest
    show Outcome T ts (q r.1 r.2)
    cases hresult' : q r.1 r.2 with
    | error e =>
      rw [hresult'] at hsecond
      exact hsecond
    | ok r' =>
      rw [hresult'] at hsecond
      obtain ⟨v, hv, hnot', hT⟩ := hsecond
      refine ⟨u ++ v, by rw [hu, hv, append_assoc], ?_, hT⟩
      intro hmem
      exact (mem_append.mp hmem).elim hnot hnot'

theorem Spec.peek {q : Token → Parser α}
    (h : ∀ t, Spec n (q t) T ∨ ∃ r : Parser α, (∀ ts, q t (t :: ts) = r ts) ∧ t.lexeme ≠ .atEnd ∧
      Spec (n - 1) r fun a v => T a (t.lexeme :: v)) : Spec n (Parser.peek >>= q) T := by
  intro ts hlen hend
  cases ts with
  | nil => cases hend
  | cons t ts =>
    show Outcome T (t :: ts) (q t (t :: ts))
    cases h t with
    | inl hstay => exact hstay _ hlen hend
    | inr htake =>
      obtain ⟨r, hr, hne, hspec⟩ := htake
      rw [hr]
      have htail : .atEnd ∈ ts.map Token.lexeme := by
        cases mem_cons.mp hend with
        | inl heq => exact absurd heq.symm hne
        | inr hmem => exact hmem
      have hrest := hspec ts (Nat.le_sub_one_of_lt hlen) htail
      cases hresult : r ts with
      | error e =>
        rw [hresult] at hrest
        exact hrest
      | ok x =>
        rw [hresult] at hrest
        obtain ⟨u, hu, hnot, hT⟩ := hrest
        refine ⟨t.lexeme :: u, by rw [map_cons, hu]; rfl, ?_, hT⟩
        exact fun hmem => (mem_cons.mp hmem).elim (fun heq => hne heq.symm) hnot

theorem spec_error (expected : Bytes) : Spec n (error expected : Parser α) T :=
  .peek fun _ => .inl .fail

/-- What `AcceptKeyword` and `AcceptSymbol` do. -/
def Accepts (p : Parser Bool) (l : Lexeme) : Prop :=
  ∀ n, Spec n p fun b u => u = if b then [l] else []

theorem lexeme_keyword_iff (t : Token) (s : Bytes) :
    t.lexeme = .keyword s ↔ t.type = .keyword ∧ t.text = s := by
  cases t with
  | mk type text intValue pos => cases type <;> simp [Token.lexeme]

theorem lexeme_symbol_iff (t : Token) (s : Bytes) :
    t.lexeme = .symbol s ↔ t.type = .symbol ∧ t.text = s := by
  cases t with
  | mk type text intValue pos => cases type <;> simp [Token.lexeme]

theorem accepts {type : TokenType} {s : Bytes} {l : Lexeme} (hne : l ≠ .atEnd)
    (hl : ∀ t : Token, t.lexeme = l ↔ t.type = type ∧ t.text = s) : Accepts (accept type s) l := by
  intro n
  refine .peek fun t => ?_
  by_cases ht : t.type = type ∧ t.text = s
  · rw [if_pos ht, (hl t).mpr ht]
    exact .inr ⟨pure true, fun ts => rfl, hne, .pure rfl⟩
  · rw [if_neg ht]
    exact .inl (.pure rfl)

theorem accepts_keyword (s : String) : Accepts (acceptKeyword s) (kw s) :=
  accepts nofun (lexeme_keyword_iff · _)

theorem accepts_symbol (s : String) : Accepts (acceptSymbol s) (sym s) :=
  accepts nofun (lexeme_symbol_iff · _)

theorem Spec.acceptIf {c : Parser Bool} {l : Lexeme} (hc : Accepts c l)
    (hp : Spec (n - 1) p fun a v => T a (l :: v)) (hq : Spec n q T) :
    Spec n (c >>= fun b => if b = true then p else q) T := by
  refine (hc n).bind fun b u hu => ?_
  cases b with
  | true =>
    subst hu
    exact hp
  | false =>
    subst hu
    exact hq

theorem spec_expectKeyword (s : String) : Spec n (expectKeyword s) fun _ u => u = [kw s] :=
  .acceptIf (accepts_keyword s) (.pure rfl) (spec_error _)

theorem spec_expectSymbol (s : String) : Spec n (expectSymbol s) fun _ u => u = [sym s] :=
  .acceptIf (accepts_symbol s) (.pure rfl) (spec_error _)

theorem spec_expectIdentifier : Spec n expectIdentifier fun name u => u = [.identifier name] := by
  refine .peek fun t => ?_
  cases t with
  | mk type text intValue pos =>
    cases type with
    | identifier => exact .inr ⟨Pure.pure text, fun _ => rfl, nofun, .pure rfl⟩
    | _ => exact .inl (spec_error _)

theorem spec_expectLiteral : Spec n expectLiteral fun v u => u = [.literal v] := by
  refine .peek fun t => ?_
  cases t with
  | mk type text intValue pos =>
    cases type with
    | int => exact .inr ⟨Pure.pure (.int intValue), fun _ => rfl, nofun, .pure rfl⟩
    | string => exact .inr ⟨Pure.pure (.text text), fun _ => rfl, nofun, .pure rfl⟩
    | _ => exact .inl (spec_error _)

theorem separated_cons (sep : Lexeme) (f : α → List Lexeme) (a : α) {as : List α} (h : as ≠ []) :
    separated sep f (a :: as) = f a ++ sep :: separated sep f as := by
  cases as with
  | nil => exact absurd rfl h
  | cons b as => rfl

variable {again : Parser Bool} {f : α → List Lexeme} {sep : Lexeme} {ts : List Token}

theorem spec_doWhile (hagain : Accepts again sep) {body : List α → Parser α} {Q : List α → Prop}
    (hbody : ∀ n acc, Q acc → Spec n (body acc) fun a u => u = f a ∧ Q (acc ++ [a])) (fuel : Nat)
    (acc : List α) (hacc : Q acc) :
    Spec fuel (doWhile again body fuel acc) fun as u =>
      ∃ new, as = acc ++ new ∧ new ≠ [] ∧ u = separated sep f new ∧ Q as := by
  induction fuel generalizing acc with
  | zero =>
    intro ts hlen hend
    rw [List.length_eq_zero_iff.mp (Nat.le_zero.mp hlen)] at hend
    cases hend
  | succ fuel ih =>
    refine (hbody _ acc hacc).bind fun a u hu => ?_
    obtain ⟨rfl, hQ⟩ := hu
    refine .acceptIf hagain ?_ (.pure ⟨[a], rfl, nofun, append_nil _, hQ⟩)
    refine ((ih (acc ++ [a]) hQ).mono (by omega)).imp ?_
    intro as u hu
    obtain ⟨new, has, hne, hu, hQ⟩ := hu
    refine ⟨a :: new, by rw [has, append_assoc]; rfl, nofun, ?_, hQ⟩
    rw [separated_cons sep f a hne, hu]

theorem spec_loop (hagain : Accepts again sep) {body : List α → Parser α} {Q : List α → Prop}
    (hQ : Q []) (hbody : ∀ n acc, Q acc → Spec n (body acc) fun a u => u = f a ∧ Q (acc ++ [a])) :
    Spec n (loop again body) fun as u => as ≠ [] ∧ u = separated sep f as ∧ Q as := by
  intro ts hlen hend
  refine (spec_doWhile hagain hbody ts.length [] hQ).imp (fun as u hu => ?_) ts le_rfl hend
  obtain ⟨new, has, hne, hu, hQ⟩ := hu
  rw [nil_append] at has
  exact ⟨has ▸ hne, has ▸ hu, hQ⟩

theorem spec_each (hagain : Accepts again sep) {body : Parser α} {P : α → Prop}
    (hbody : ∀ n, Spec n body fun a u => u = f a ∧ P a) :
    Spec n (loop again fun _ => body) fun as u =>
      as ≠ [] ∧ u = separated sep f as ∧ ∀ a ∈ as, P a := by
  refine spec_loop hagain nofun fun n acc hacc => (hbody n).imp fun a u hu => ⟨hu.1, ?_⟩
  intro b hb
  cases mem_append.mp hb with
  | inl hb => exact hacc b hb
  | inr hb => exact mem_singleton.mp hb ▸ hu.2

theorem spec_separated (hagain : Accepts again sep) {body : Parser α}
    (hbody : ∀ n, Spec n body fun a u => u = f a) :
    Spec n (loop again fun _ => body) fun as u => as ≠ [] ∧ u = separated sep f as :=
  (spec_loop (Q := fun _ => True) hagain trivial fun n _ _ => (hbody n).imp
    fun _ _ hu => ⟨hu, trivial⟩).imp fun _ _ hu => ⟨hu.1, hu.2.1⟩

/-! ## What is accepted. -/

theorem spec_names : Spec n (commaSeparated expectIdentifier) fun columns u =>
    columns ≠ [] ∧ u = names columns :=
  spec_separated (accepts_symbol ",") fun _ => spec_expectIdentifier

theorem spec_parseType : Spec n parseType fun type u =>
    u = [match type with | .int => kw "INT" | .text => kw "TEXT"] :=
  .acceptIf (accepts_keyword _) (.pure rfl) (.acceptIf (accepts_keyword _) (.pure rfl) (spec_error _))

theorem spec_parsePrimary : Spec n parsePrimary fun isPk u =>
    u = if isPk then [kw "PRIMARY", kw "KEY"] else [] := by
  refine .acceptIf (accepts_keyword _) ?_ (.pure rfl)
  refine (spec_expectKeyword _).bind fun _ u hu => .pure ?_
  subst hu
  rfl

theorem spec_parseColumn (columns : List ColumnDef)
    (hnodup : (columns.map ColumnDef.name).Nodup) : Spec n (parseColumn columns) fun col u =>
    u = col.lexemes ∧ ((columns ++ [col]).map ColumnDef.name).Nodup := by
  refine spec_expectIdentifier.bind fun name u hu => ?_
  refine spec_parseType.bind fun type v hv => ?_
  refine spec_parsePrimary.bind fun isPk w hw => ?_
  by_cases hany : columns.any (·.name = name)
  · rw [if_pos hany]
    exact .fail
  · rw [if_neg hany]
    subst hu hv hw
    refine .pure ⟨by simp [ColumnDef.lexemes], ?_⟩
    rw [map_append, nodup_append]
    refine ⟨hnodup, by simp, fun a ha b hb heq => hany ?_⟩
    obtain ⟨col, hcol, hname⟩ := mem_map.mp ha
    rw [mem_singleton.mp hb] at heq
    exact List.any_eq_true.mpr ⟨col, hcol, decide_eq_true (hname.trans heq)⟩

/-- What a statement behind its first keyword uses. -/
def Rest (keyword : String) (stmt : Statement) (u : List Lexeme) : Prop :=
  stmt.Derivable ∧ kw keyword :: u = stmt.lexemes

theorem spec_parseCreate : Spec n parseCreate (Rest "CREATE") := by
  refine (spec_expectKeyword _).bind fun _ u hu => ?_
  refine spec_expectIdentifier.bind fun table v hv => ?_
  refine (spec_expectSymbol _).bind fun _ w hw => ?_
  refine (spec_loop (Q := fun columns => (columns.map ColumnDef.name).Nodup) (accepts_symbol ",")
    List.nodup_nil fun _ => spec_parseColumn).bind fun columns x hx => ?_
  refine (spec_expectSymbol _).bind fun _ y hy => ?_
  by_cases hpk : columns.countP ColumnDef.isPk ≠ 1
  · rw [if_pos hpk]
    exact .fail
  · rw [if_neg hpk]
    obtain ⟨-, rfl, hnodup⟩ := hx
    subst hu hv hw hy
    exact .pure ⟨⟨hnodup, not_not.mp hpk⟩, by simp [Statement.lexemes]⟩

theorem spec_parseDrop : Spec n parseDrop (Rest "DROP") := by
  refine (spec_expectKeyword _).bind fun _ u hu => ?_
  refine spec_expectIdentifier.bind fun table v hv => .pure ⟨trivial, ?_⟩
  subst hu hv
  rfl

theorem spec_parseColumnList : Spec n parseColumnList fun columns u =>
    u = if columns = [] then [] else sym "(" :: names columns ++ [sym ")"] := by
  refine .acceptIf (accepts_symbol _) ?_ (.pure rfl)
  refine spec_names.bind fun columns u hu => ?_
  refine (spec_expectSymbol _).bind fun _ v hv => .pure ?_
  obtain ⟨hne, rfl⟩ := hu
  subst hv
  simp [hne]

theorem spec_parseRow : Spec n parseRow fun row u => u = rowLexemes row ∧ row ≠ [] := by
  refine (spec_expectSymbol _).bind fun _ u hu => ?_
  refine (spec_separated (accepts_symbol ",") fun _ => spec_expectLiteral).bind fun row v hv => ?_
  refine (spec_expectSymbol _).bind fun _ w hw => .pure ⟨?_, hv.1⟩
  obtain ⟨-, rfl⟩ := hv
  subst hu hw
  simp [rowLexemes]

theorem spec_parseInsert : Spec n parseInsert (Rest "INSERT") := by
  refine (spec_expectKeyword _).bind fun _ u hu => ?_
  refine spec_expectIdentifier.bind fun table v hv => ?_
  refine spec_parseColumnList.bind fun columns w hw => ?_
  refine (spec_expectKeyword _).bind fun _ x hx => ?_
  refine (spec_each (accepts_symbol ",") fun _ => spec_parseRow).bind fun rows y hy => ?_
  obtain ⟨hne, rfl, hrows⟩ := hy
  subst hu hv hw hx
  exact .pure ⟨⟨hne, hrows⟩, by simp [Statement.lexemes]⟩

theorem lookup_operators {s : Bytes} {op : CompareOp} (h : operators.lookup s = some op) :
    op.lexeme = .symbol s := by
  simp only [operators, List.lookup_cons] at h
  repeat' split at h
  all_goals cases h
  all_goals
    rename_i heq
    rw [eq_of_beq heq]
    rfl

theorem spec_parseOp : Spec n parseOp fun op u => u = [op.lexeme] := by
  refine .peek fun t => ?_
  cases t with
  | mk type text intValue pos =>
    cases type with
    | symbol =>
      refine .inr ⟨match operators.lookup text with
        | some op => Pure.pure op
        | none => error _, fun _ => rfl, nofun, ?_⟩
      cases hop : operators.lookup text with
      | some op => exact .pure (by rw [lookup_operators hop]; rfl)
      | none => exact spec_error _
    | _ => exact .inl (spec_error _)

theorem spec_parsePredicate : Spec n parsePredicate fun pred u => u = pred.lexemes := by
  refine spec_expectIdentifier.bind fun column u hu => ?_
  refine spec_parseOp.bind fun op v hv => ?_
  refine spec_expectLiteral.bind fun literal w hw => .pure ?_
  subst hu hv hw
  rfl

theorem spec_parseWhere : Spec n parseWhere fun preds u => u = whereLexemes preds := by
  refine .acceptIf (accepts_keyword _) ?_ (.pure rfl)
  refine (spec_separated (accepts_keyword _) fun _ => spec_parsePredicate).imp fun preds u hu => ?_
  obtain ⟨hne, rfl⟩ := hu
  cases preds with
  | nil => exact absurd rfl hne
  | cons pred preds => rfl

theorem spec_parseProjection : Spec n parseProjection fun columns u =>
    u = if columns = [] then [sym "*"] else names columns :=
  .acceptIf (accepts_symbol _) (.pure rfl) (spec_names.imp fun _ _ hu => by rw [if_neg hu.1, hu.2])

theorem spec_parseSelect : Spec n parseSelect (Rest "SELECT") := by
  refine spec_parseProjection.bind fun columns u hu => ?_
  refine (spec_expectKeyword _).bind fun _ v hv => ?_
  refine spec_expectIdentifier.bind fun table w hw => ?_
  refine spec_parseWhere.bind fun preds x hx => .pure ⟨trivial, ?_⟩
  subst hu hv hw hx
  simp [Statement.lexemes]

theorem spec_parseSet : Spec n parseSet fun set u => u = setLexemes set := by
  refine spec_expectIdentifier.bind fun column u hu => ?_
  refine (spec_expectSymbol _).bind fun _ v hv => ?_
  refine spec_expectLiteral.bind fun value w hw => .pure ?_
  subst hu hv hw
  rfl

theorem spec_parseUpdate : Spec n parseUpdate (Rest "UPDATE") := by
  refine spec_expectIdentifier.bind fun table u hu => ?_
  refine (spec_expectKeyword _).bind fun _ v hv => ?_
  refine (spec_separated (accepts_symbol ",") fun _ => spec_parseSet).bind fun sets w hw => ?_
  refine spec_parseWhere.bind fun preds x hx => ?_
  obtain ⟨hne, rfl⟩ := hw
  subst hu hv hx
  exact .pure ⟨hne, by simp [Statement.lexemes]⟩

theorem spec_parseDelete : Spec n parseDelete (Rest "DELETE") := by
  refine (spec_expectKeyword _).bind fun _ u hu => ?_
  refine spec_expectIdentifier.bind fun table v hv => ?_
  refine spec_parseWhere.bind fun preds w hw => .pure ⟨trivial, ?_⟩
  subst hu hv hw
  simp [Statement.lexemes]

theorem parseStatement_spec : Spec n parseStatement fun stmt u =>
    stmt.Derivable ∧ u = stmt.lexemes := by
  refine .acceptIf (accepts_keyword _) spec_parseCreate ?_
  refine .acceptIf (accepts_keyword _) spec_parseDrop ?_
  refine .acceptIf (accepts_keyword _) spec_parseInsert ?_
  refine .acceptIf (accepts_keyword _) spec_parseSelect ?_
  refine .acceptIf (accepts_keyword _) spec_parseUpdate ?_
  exact .acceptIf (accepts_keyword _) spec_parseDelete (spec_error _)

/-- `;`, or nothing. -/
def Semi (u : List Lexeme) : Prop := u = [] ∨ u = [sym ";"]

theorem bind_ok {q : α → Parser β} {r : β × List Token} (h : (p >>= q) ts = .ok r) :
    ∃ a rest, p ts = .ok (a, rest) ∧ q a rest = .ok r := by
  replace h : (p ts >>= fun x => q x.1 x.2) = .ok r := h
  cases hp : p ts with
  | error e =>
    rw [hp] at h
    cases h
  | ok x =>
    rw [hp] at h
    exact ⟨x.1, x.2, rfl, h⟩

theorem spec_finish : Spec n finish fun _ u => Semi u := by
  refine (accepts_symbol ";" n).bind fun b u hu => ?_
  refine .peek fun t => .inl ?_
  by_cases htype : t.type = .atEnd
  · rw [if_pos htype]
    refine .pure ?_
    rw [append_nil, hu]
    cases b with
    | true => exact .inr rfl
    | false => exact .inl rfl
  · rw [if_neg htype]
    exact spec_error _

theorem finish_rest {rest : List Token} (h : finish ts = .ok ((), rest)) :
    ∃ l, rest.map Token.lexeme = .atEnd :: l := by
  obtain ⟨b, ts', -, h⟩ := bind_ok h
  cases ts' with
  | nil => cases h
  | cons t ts' =>
    replace h : (if t.type = .atEnd then pure () else error _ : Parser Unit) (t :: ts') =
      .ok ((), rest) := h
    by_cases htype : t.type = .atEnd
    · rw [if_pos htype] at h
      obtain rfl : t :: ts' = rest := congrArg Prod.snd (Except.ok.inj h)
      refine ⟨ts'.map Token.lexeme, ?_⟩
      rw [map_cons, Token.lexeme, htype]
    · rw [if_neg htype] at h
      cases h

/-- The tokens of a statement, up to `kEnd`. -/
def Accepted (ts : List Token) (stmt : Statement) : Prop :=
  stmt.Derivable ∧ ∃ semi l, Semi semi ∧
    ts.map Token.lexeme = stmt.lexemes ++ semi ++ .atEnd :: l

theorem parseTokens_spec (hend : .atEnd ∈ ts.map Token.lexeme) :
    (∃ s, parseTokens ts = .error (.status s)) ∨
      ∃ stmt rest, parseTokens ts = .ok (stmt, rest) ∧ Accepted ts stmt := by
  have hspec : Spec ts.length parseTokens fun stmt u =>
      stmt.Derivable ∧ ∃ semi, Semi semi ∧ u = stmt.lexemes ++ semi := by
    refine parseStatement_spec.bind fun stmt u hu => ?_
    refine spec_finish.bind fun _ v hv => .pure ⟨hu.1, v, hv, ?_⟩
    rw [hu.2, append_nil]
  have houtcome := hspec ts le_rfl hend
  cases hresult : parseTokens ts with
  | error e =>
    rw [hresult] at houtcome
    obtain ⟨s, rfl⟩ := houtcome
    exact .inl ⟨s, rfl⟩
  | ok r =>
    rw [hresult] at houtcome
    obtain ⟨used, hused, -, hderivable, semi, hsemi, rfl⟩ := houtcome
    obtain ⟨stmt, ts', hstmt, htail⟩ := bind_ok hresult
    obtain ⟨_, rest, hfinish, hpure⟩ := bind_ok htail
    obtain ⟨l, hl⟩ := finish_rest hfinish
    obtain rfl : (stmt, rest) = r := Except.ok.inj hpure
    rw [hl] at hused
    exact .inr ⟨stmt, rest, rfl, hderivable, semi, l, hsemi, hused⟩

end Parser

end Flotilla.Sql

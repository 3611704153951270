/-
  Sql.Grammar — the parser accepts all of its grammar, from the text on.

  A statement can be written with keywords in any case, integers with any digits
  that denote them, and texts with their quotes doubled.
-/
import Flotilla.Sql.Parser

namespace Flotilla.Sql

open Lexeme (kw sym)

namespace Parser

variable {α β : Type} {p q : Parser α} {a : α} {b : β} {l l' m : List Lexeme} {n : Nat}

/-! ## Rules for derivations. -/

/-- From tokens with these lexemes the parser gets to those. -/
def Runs (p : Parser α) (l : List Lexeme) (a : α) (m : List Lexeme) : Prop :=
  ∀ ts : List Token, ts.map Token.lexeme = l → ∃ rest, p ts = .ok (a, rest) ∧
    rest.map Token.lexeme = m

theorem Runs.pure : Runs (pure a) l a l := fun ts hts => ⟨ts, rfl, hts⟩

theorem Runs.bind {q : α → Parser β} (hp : Runs p l a l') (hq : Runs (q a) l' b m) :
    Runs (p >>= q) l b m := by
  intro ts hts
  obtain ⟨rest, hfirst, hrest⟩ := hp ts hts
  obtain ⟨rest', hsecond, hrest'⟩ := hq rest hrest
  refine ⟨rest', ?_, hrest'⟩
  show (p ts >>= fun r => q r.1 r.2) = _
  rw [hfirst]
  exact hsecond

/-- The next token is there, and another one. -/
def Skips (x : Lexeme) (l : List Lexeme) : Prop := ∃ y l', l = y :: l' ∧ y ≠ x

variable {x sep : Lexeme} {again : Parser Bool} {f : α → List Lexeme}

theorem skips_cons {y : Lexeme} (hne : y ≠ x) : Skips x (y :: l) := ⟨y, l, rfl, hne⟩

/-- `AcceptKeyword` or `AcceptSymbol` of the lexeme. -/
structure Takes (c : Parser Bool) (x : Lexeme) : Prop where
  taken : ∀ l, Runs c (x :: l) true l
  left : ∀ l, Skips x l → Runs c l false l

theorem takes {type : TokenType} {s : Bytes}
    (hx : ∀ t : Token, t.lexeme = x ↔ t.type = type ∧ t.text = s) : Takes (accept type s) x := by
  constructor
  · intro l ts hts
    obtain ⟨t, rest, rfl, ht, hrest⟩ := map_eq_cons_iff.mp hts
    refine ⟨rest, ?_, hrest⟩
    show (if t.type = type ∧ t.text = s then _ else _ : Parser Bool) (t :: rest) = _
    rw [if_pos ((hx t).mp ht)]
    rfl
  · intro l hskips ts hts
    obtain ⟨y, l', rfl, hne⟩ := hskips
    obtain ⟨t, rest, rfl, ht, hrest⟩ := map_eq_cons_iff.mp hts
    refine ⟨t :: rest, ?_, hts⟩
    show (if t.type = type ∧ t.text = s then _ else _ : Parser Bool) (t :: rest) = _
    rw [if_neg fun h => hne (ht.symm.trans ((hx t).mpr h))]
    rfl

theorem takes_keyword (s : String) : Takes (acceptKeyword s) (kw s) :=
  takes (lexeme_keyword_iff · _)

theorem takes_symbol (s : String) : Takes (acceptSymbol s) (sym s) :=
  takes (lexeme_symbol_iff · _)

theorem Runs.acceptIf {c : Parser Bool} (hc : Takes c x) (hp : Runs p l a m) :
    Runs (c >>= fun b => if b = true then p else q) (x :: l) a m :=
  (hc.taken l).bind hp

theorem Runs.acceptElse {c : Parser Bool} (hc : Takes c x) (hskips : Skips x l) (hq : Runs q l a m) :
    Runs (c >>= fun b => if b = true then p else q) l a m :=
  (hc.left l hskips).bind hq

theorem Runs.other {s s' : String} (hne : kw s' ≠ kw s) (hq : Runs q (kw s' :: l) a m) :
    Runs (acceptKeyword s >>= fun b => if b = true then p else q) (kw s' :: l) a m :=
  .acceptElse (takes_keyword s) (skips_cons hne) hq

theorem runs_expectKeyword (s : String) : Runs (expectKeyword s) (kw s :: l) () l :=
  .acceptIf (takes_keyword s) .pure

theorem runs_expectSymbol (s : String) : Runs (expectSymbol s) (sym s :: l) () l :=
  .acceptIf (takes_symbol s) .pure

theorem Runs.peek {q : Token → Parser α} (h : ∀ t ts, t.lexeme = x → q t (t :: ts) = .ok (a, ts)) :
    Runs (Parser.peek >>= q) (x :: l) a l := by
  intro ts hts
  obtain ⟨t, rest, rfl, ht, hrest⟩ := map_eq_cons_iff.mp hts
  exact ⟨rest, h t rest ht, hrest⟩

theorem runs_expectIdentifier (name : Bytes) :
    Runs expectIdentifier (.identifier name :: l) name l := by
  refine .peek fun t ts ht => ?_
  cases t with
  | mk type text intValue pos =>
    cases type <;> cases ht
    rfl

theorem runs_expectLiteral (v : Value) : Runs expectLiteral (.literal v :: l) v l := by
  refine .peek fun t ts ht => ?_
  cases t with
  | mk type text intValue pos => cases type <;> cases ht <;> rfl

theorem run_lookup {s : Bytes} {op : CompareOp} (h : operators.lookup s = some op)
    (ts : List Token) : (match operators.lookup s with
      | some op => (Pure.pure op : Parser CompareOp)
      | none => error (text "expected comparison operator")) ts = .ok (op, ts) := by
  rw [h]
  rfl

theorem runs_parseOp (op : CompareOp) : Runs parseOp (op.lexeme :: l) op l := by
  have hlookup : ∀ op : CompareOp, ∃ s, op.lexeme = .symbol s ∧ operators.lookup s = some op := by
    intro op
    cases op <;> exact ⟨_, rfl, by decide +kernel⟩
  obtain ⟨s, hs, hop⟩ := hlookup op
  rw [hs]
  refine .peek fun t ts ht => ?_
  obtain ⟨htype, rfl⟩ := (lexeme_symbol_iff t s).mp ht
  rw [if_pos htype]
  exact run_lookup hop ts

theorem length_separated (sep : Lexeme) (f : α → List Lexeme) (as : List α) :
    as.length ≤ (separated sep f as).length + 1 := by
  induction as with
  | nil => exact Nat.zero_le _
  | cons a as ih =>
    cases as with
    | nil => exact Nat.le_add_left _ _
    | cons b as =>
      rw [separated_cons _ _ _ (cons_ne_nil b as)]
      simp only [length_append, length_cons] at ih ⊢
      omega

section

variable (hagain : Takes again sep) {body : List α → Parser α} {F : List Lexeme → Prop}
  (hsep : ∀ l, F (sep :: l)) (hF : F m) (hskips : Skips sep m)

include hagain hsep hF hskips

theorem runs_doWhile (new acc : List α) (hne : new ≠ [])
    (hbody : ∀ pre a post l, new = pre ++ a :: post → F l → Runs (body (acc ++ pre)) (f a ++ l) a l)
    {fuel : Nat} (hfuel : new.length ≤ fuel) :
    Runs (doWhile again body fuel acc) (separated sep f new ++ m) (acc ++ new) m := by
  induction new generalizing acc fuel with
  | nil => exact absurd rfl hne
  | cons a new ih =>
    cases fuel with
    | zero => cases hfuel
    | succ fuel =>
      have hhead := hbody [] a new
      rw [append_nil] at hhead
      cases new with
      | nil => exact (hhead m rfl hF).bind (.acceptElse hagain hskips .pure)
      | cons b new =>
        rw [separated_cons _ _ _ (cons_ne_nil b new), append_assoc]
        refine (hhead _ rfl (hsep _)).bind (.acceptIf hagain ?_)
        have htail := ih (acc ++ [a]) (cons_ne_nil b new) (fun pre x post l hnew => by
          have hstep := hbody (a :: pre) x post l (by rw [hnew]; rfl)
          rwa [append_assoc]) (Nat.le_of_succ_le_succ hfuel)
        rwa [append_assoc] at htail

theorem runs_loop {as : List α} (hne : as ≠ [])
    (hbody : ∀ pre a post l, as = pre ++ a :: post → F l → Runs (body pre) (f a ++ l) a l) :
    Runs (loop again body) (separated sep f as ++ m) as m := by
  intro ts hts
  have hlength := congrArg List.length hts
  obtain ⟨y, m', rfl, -⟩ := id hskips
  rw [length_map, length_append, length_cons] at hlength
  have hle := length_separated sep f as
  exact runs_doWhile hagain hsep hF hskips as [] hne hbody (by omega) ts hts

end

theorem runs_separated (hagain : Takes again sep) {body : Parser α} (hskips : Skips sep m)
    {as : List α} (hne : as ≠ []) (hbody : ∀ a ∈ as, ∀ l, Runs body (f a ++ l) a l) :
    Runs (loop again fun _ => body) (separated sep f as ++ m) as m :=
  runs_loop (F := fun _ => True) hagain (fun _ => trivial) trivial hskips hne
    fun pre a post l has _ => hbody a (by rw [has]; simp) l

/-! ## Derivations are accepted. -/

/-- Behind a statement. -/
def Final (m : List Lexeme) : Prop := ∃ y l, m = y :: l ∧ (y = sym ";" ∨ y = .atEnd)

theorem Final.skips (h : Final m) (hsemi : sym ";" ≠ x) (hend : .atEnd ≠ x) :
    Skips x m := by
  obtain ⟨y, l, rfl, hy⟩ := h
  exact ⟨y, l, rfl, hy.elim (fun h => h ▸ hsemi) fun h => h ▸ hend⟩

theorem runs_names {columns : List Bytes} (hne : columns ≠ []) (hskips : Skips (sym ",") m) :
    Runs (commaSeparated expectIdentifier) (names columns ++ m) columns m :=
  runs_separated (takes_symbol ",") hskips hne fun name _ _ => runs_expectIdentifier name

theorem runs_parseWhere (preds : List Predicate) (hm : Final m) :
    Runs parseWhere (whereLexemes preds ++ m) preds m := by
  cases preds with
  | nil => exact .acceptElse (takes_keyword _) (hm.skips (by decide +kernel) nofun) .pure
  | cons pred preds =>
    refine .acceptIf (takes_keyword _) (runs_separated (takes_keyword _)
      (hm.skips (by decide +kernel) nofun) nofun fun pred _ l => ?_)
    exact (runs_expectIdentifier _).bind ((runs_parseOp _).bind ((runs_expectLiteral _).bind .pure))

theorem runs_parseType (type : ValueType) :
    Runs parseType ((match type with | .int => kw "INT" | .text => kw "TEXT") :: l) type l := by
  cases type with
  | int => exact .acceptIf (takes_keyword _) .pure
  | text =>
    exact .acceptElse (takes_keyword _) (skips_cons (by decide +kernel))
      (.acceptIf (takes_keyword _) .pure)

theorem runs_parseColumn {pre : List ColumnDef} {col : ColumnDef}
    (hnew : ∀ c ∈ pre, c.name ≠ col.name) (hl : Skips (kw "PRIMARY") l) :
    Runs (parseColumn pre) (col.lexemes ++ l) col l := by
  have hprimary : Runs parsePrimary ((if col.isPk then [kw "PRIMARY", kw "KEY"] else []) ++ l)
      col.isPk l := by
    cases col.isPk with
    | true => exact .acceptIf (takes_keyword _) ((runs_expectKeyword _).bind .pure)
    | false => exact .acceptElse (takes_keyword _) hl .pure
  refine (runs_expectIdentifier _).bind ((runs_parseType _).bind (hprimary.bind ?_))
  rw [if_neg (by simpa using hnew)]
  exact .pure

theorem runs_parseCreate (stmt : CreateTableStmt) (h : Columns.Parsed stmt.columns) :
    Runs parseCreate ([kw "TABLE", .identifier stmt.table, sym "("] ++
      separated (sym ",") ColumnDef.lexemes stmt.columns ++ sym ")" :: m) (.createTable stmt) m := by
  have hne : stmt.columns ≠ [] := by
    intro hnil
    have hone := h.onePk
    rw [hnil] at hone
    cases hone
  have hcolumns : Runs (loop (acceptSymbol ",") parseColumn)
      (separated (sym ",") ColumnDef.lexemes stmt.columns ++ sym ")" :: m) stmt.columns
      (sym ")" :: m) := by
    have hparen : Skips (kw "PRIMARY") (sym ")" :: m) := skips_cons nofun
    have hcomma : Skips (sym ",") (sym ")" :: m) := skips_cons (by decide +kernel)
    refine runs_loop (F := Skips (kw "PRIMARY")) (takes_symbol ",") (fun l => skips_cons nofun) hparen
      hcomma hne fun pre col post l hsplit hl => ?_
    have hdistinct := h.distinct
    rw [hsplit, map_append, nodup_append] at hdistinct
    exact runs_parseColumn (fun c hc => hdistinct.2.2 _ (mem_map_of_mem hc) _ mem_cons_self) hl
  rw [append_assoc]
  refine (runs_expectKeyword _).bind ((runs_expectIdentifier _).bind
    ((runs_expectSymbol _).bind (hcolumns.bind ((runs_expectSymbol _).bind ?_))))
  rw [if_neg (not_not.mpr h.onePk)]
  exact .pure

theorem runs_parseRow {row : List Value} (hne : row ≠ []) :
    Runs parseRow (rowLexemes row ++ l) row l := by
  unfold rowLexemes
  rw [cons_append, cons_append, append_assoc]
  refine (runs_expectSymbol _).bind ((runs_separated (takes_symbol ",") (skips_cons (by decide +kernel))
    hne fun v _ _ => runs_expectLiteral v).bind ?_)
  exact (runs_expectSymbol _).bind .pure

theorem runs_parseInsert (stmt : InsertStmt) (hne : stmt.rows ≠ []) (hrows : ∀ row ∈ stmt.rows, row ≠ [])
    (hm : Final m) :
    Runs parseInsert ([kw "INTO", .identifier stmt.table] ++
      (if stmt.columns = [] then [] else sym "(" :: names stmt.columns ++ [sym ")"]) ++
        kw "VALUES" :: separated (sym ",") rowLexemes stmt.rows ++ m) (.insert stmt) m := by
  have hcolumns : ∀ l, Runs parseColumnList ((if stmt.columns = [] then [] else
      sym "(" :: names stmt.columns ++ [sym ")"]) ++ kw "VALUES" :: l) stmt.columns
      (kw "VALUES" :: l) := by
    intro l
    by_cases hnil : stmt.columns = []
    · rw [if_pos hnil, hnil]
      exact .acceptElse (takes_symbol _) (skips_cons nofun) .pure
    · rw [if_neg hnil, cons_append, cons_append, append_assoc]
      exact .acceptIf (takes_symbol _) ((runs_names hnil (skips_cons (by decide +kernel))).bind
        ((runs_expectSymbol _).bind .pure))
  rw [append_assoc, append_assoc]
  refine (runs_expectKeyword _).bind ((runs_expectIdentifier _).bind ((hcolumns _).bind
    ((runs_expectKeyword _).bind ((runs_separated (takes_symbol ",")
      (hm.skips (by decide +kernel) nofun) hne fun row hrow _ => runs_parseRow (hrows row hrow)).bind
        .pure))))

theorem runs_parseSelect (stmt : SelectStmt) (hm : Final m) :
    Runs parseSelect ((if stmt.columns = [] then [sym "*"] else names stmt.columns) ++
      kw "FROM" :: .identifier stmt.table :: (whereLexemes stmt.where_ ++ m)) (.select stmt) m := by
  have hcolumns : ∀ l, Runs parseProjection ((if stmt.columns = [] then [sym "*"] else
      names stmt.columns) ++ kw "FROM" :: l) stmt.columns (kw "FROM" :: l) := by
    intro l
    by_cases hnil : stmt.columns = []
    · rw [if_pos hnil, hnil]
      exact .acceptIf (takes_symbol _) .pure
    · rw [if_neg hnil]
      refine .acceptElse (takes_symbol _) ?_ (runs_names hnil (skips_cons nofun))
      cases hcols : stmt.columns with
      | nil => exact absurd hcols hnil
      | cons name columns => cases columns <;> exact skips_cons nofun
  exact (hcolumns _).bind ((runs_expectKeyword _).bind ((runs_expectIdentifier _).bind
    ((runs_parseWhere _ hm).bind .pure)))

theorem runs_parseUpdate (stmt : UpdateStmt) (hne : stmt.sets ≠ []) (hm : Final m) :
    Runs parseUpdate (.identifier stmt.table :: kw "SET" :: (separated (sym ",") setLexemes stmt.sets ++
      (whereLexemes stmt.where_ ++ m))) (.update stmt) m := by
  have hskips : Skips (sym ",") (whereLexemes stmt.where_ ++ m) := by
    cases stmt.where_ with
    | nil => exact hm.skips (by decide +kernel) nofun
    | cons pred preds => exact skips_cons nofun
  have hset : ∀ set l, Runs parseSet (setLexemes set ++ l) set l := fun set l =>
    (runs_expectIdentifier _).bind ((runs_expectSymbol _).bind ((runs_expectLiteral _).bind .pure))
  exact (runs_expectIdentifier _).bind ((runs_expectKeyword _).bind
    ((runs_separated (takes_symbol ",") hskips hne fun set _ => hset set).bind
      ((runs_parseWhere _ hm).bind .pure)))

theorem runs_parseStatement {stmt : Statement} (h : stmt.Derivable) (hm : Final m) :
    Runs parseStatement (stmt.lexemes ++ m) stmt m := by
  unfold parseStatement
  cases stmt with
  | createTable stmt =>
    have hrun := runs_parseCreate (m := m) stmt h
    refine .acceptIf (takes_keyword _) ?_
    simpa using hrun
  | dropTable stmt =>
    refine .other (by decide +kernel) ?_
    refine .acceptIf (takes_keyword _) ?_
    exact (runs_expectKeyword _).bind ((runs_expectIdentifier _).bind .pure)
  | insert stmt =>
    repeat refine .other (by decide +kernel) ?_
    exact .acceptIf (takes_keyword _) (runs_parseInsert stmt h.1 h.2 hm)
  | select stmt =>
    have hrun := runs_parseSelect stmt hm
    repeat refine .other (by decide +kernel) ?_
    refine .acceptIf (takes_keyword _) ?_
    simpa using hrun
  | update stmt =>
    have hrun := runs_parseUpdate stmt h hm
    repeat refine .other (by decide +kernel) ?_
    refine .acceptIf (takes_keyword _) ?_
    simpa using hrun
  | delete stmt =>
    repeat refine .other (by decide +kernel) ?_
    refine .acceptIf (takes_keyword _) ?_
    exact (runs_expectKeyword _).bind ((runs_expectIdentifier _).bind
      ((runs_parseWhere _ hm).bind .pure))

theorem runs_finish {semi : List Lexeme} (h : Semi semi) :
    Runs finish (semi ++ .atEnd :: l) () (.atEnd :: l) := by
  have hpeek : Runs (Parser.peek >>= fun token => if token.type = .atEnd then Pure.pure () else
      error (text "unexpected trailing input")) (.atEnd :: l) () (.atEnd :: l) := by
    intro ts hts
    obtain ⟨t, rest, rfl, ht, hrest⟩ := map_eq_cons_iff.mp hts
    refine ⟨t :: rest, ?_, hts⟩
    cases t with
    | mk type text intValue pos =>
      cases type <;> cases ht
      rfl
  cases h with
  | inl hnone =>
    subst hnone
    have hend : Skips (sym ";") (.atEnd :: l) := skips_cons nofun
    exact ((takes_symbol ";").left _ hend).bind hpeek
  | inr hsemi =>
    subst hsemi
    exact ((takes_symbol ";").taken _).bind hpeek

theorem runs_parseTokens {stmt : Statement} {semi : List Lexeme} (h : stmt.Derivable)
    (hsemi : Semi semi) :
    Runs parseTokens (stmt.lexemes ++ semi ++ .atEnd :: l) stmt (.atEnd :: l) := by
  rw [append_assoc]
  have hfinal : Final (semi ++ .atEnd :: l) := by
    cases hsemi with
    | inl hnone => exact hnone ▸ ⟨_, l, rfl, .inr rfl⟩
    | inr hsemi => exact hsemi ▸ ⟨_, _, rfl, .inl rfl⟩
  exact (runs_parseStatement h hfinal).bind ((runs_finish hsemi).bind .pure)

end Parser

/-! ## Statements as text. -/

def symbols : List Bytes := ["(", ")", ",", ";", "*", "=", "!=", "<", "<=", ">", ">="].map text

/-- A quote in a text is written twice. -/
def escapeQuotes (s : Bytes) : Bytes := s.flatMap fun c => if c = 39 then [39, 39] else [c]

/-- An optional `-`, and digits. -/
def IsInteger : Bytes → Prop
  | 45 :: digits => digits ≠ [] ∧ digits.all isDigit
  | digits => digits ≠ [] ∧ digits.all isDigit

/-- The ways to write a lexeme: keywords in any case, integers with leading zeros or without. -/
inductive Writes : Lexeme → Bytes → Prop
  | keyword {w : Bytes} (hw : w.map toUpper ∈ keywords) : Writes (.keyword (w.map toUpper)) w
  | identifier {c : UInt8} {w : Bytes} (hc : startsWord c = true) (hw : w.all inWord = true)
      (hfree : (c :: w).map toUpper ∉ keywords) : Writes (.identifier (c :: w)) (c :: w)
  | int {i : Int64} {s : Bytes} (hs : IsInteger s) (hi : denotes s = i.toInt) :
      Writes (.literal (.int i)) s
  | text (s : Bytes) : Writes (.literal (.text s)) (39 :: escapeQuotes s ++ [39])
  | symbol {s : Bytes} (hs : s ∈ symbols) : Writes (.symbol s) s

theorem inWord_space : inWord 32 = false := by decide

theorem takeWhile_word {p : UInt8 → Bool} {w rest : Bytes} (hw : w.all p = true)
    (hspace : p 32 = false) :
    (w ++ 32 :: rest).takeWhile p = w ∧ (w ++ 32 :: rest).dropWhile p = 32 :: rest := by
  have hall : ∀ c ∈ w, p c = true := all_eq_true.mp hw
  rw [List.takeWhile_append_of_pos hall, List.dropWhile_append_of_pos hall]
  simp [hspace]

variable {c : UInt8}

theorem toUpper_word (h : isAlpha (toUpper c) = true) : isAlpha c = true := by
  unfold toUpper at h
  split at h
  · rename_i hlower
    simp only [isAlpha, hlower, Bool.or_true]
  · exact h

theorem keywords_alpha : ∀ w ∈ keywords, w ≠ [] ∧ w.all isAlpha = true := by decide +kernel

theorem lexString_escape (s rest : Bytes) :
    lexString (escapeQuotes s ++ 39 :: 32 :: rest) = some (s, 32 :: rest) := by
  induction s with
  | nil => rfl
  | cons c s ih =>
    unfold escapeQuotes at ih ⊢
    rw [flatMap_cons]
    by_cases hc : c = 39
    · subst hc
      show (lexString (List.flatMap _ s ++ 39 :: 32 :: rest)).map _ = _
      rw [ih]
      rfl
    · rw [if_neg hc]
      show lexString (c :: (List.flatMap _ s ++ 39 :: 32 :: rest)) = _
      rw [lexString.eq_4 _ _ (fun _ h _ => hc h) hc, ih]
      rfl

theorem notSpace_of_startsWord : ∀ c, startsWord c = true → isSpace c = false :=
  forall_bytes (by decide +kernel)

theorem notSpace_of_digit : ∀ c, isDigit c = true → isSpace c = false ∧ startsWord c = false :=
  forall_bytes (by decide +kernel)

/-- One token of the text, with a space behind it. -/
def Reads (x : Lexeme) (s : Bytes) : Prop :=
  ∃ c w, s = c :: w ∧ isSpace c = false ∧ ∀ pos rest, ∃ t,
    lexToken pos c (w ++ 32 :: rest) = .ok (t, 32 :: rest) ∧ t.lexeme = x

theorem reads_word {x : Lexeme} {w : Bytes} (hc : startsWord c = true) (hw : w.all inWord = true)
    (hx : ∀ pos, (word pos (c :: w)).lexeme = x) : Reads x (c :: w) := by
  refine ⟨c, w, rfl, notSpace_of_startsWord c hc, fun pos rest => ⟨_, ?_, hx pos⟩⟩
  obtain ⟨htake, hdrop⟩ := @takeWhile_word inWord w rest hw inWord_space
  unfold lexToken
  rw [if_pos hc, htake, hdrop]

theorem reads_int {i : Int64} {w : Bytes} (hspace : isSpace c = false)
    (hword : startsWord c = false)
    (hc : isDigit c = true ∨ (c = 45 ∧ ∀ rest, (w ++ rest).head?.any isDigit = true))
    (hw : w.all isDigit = true) (hi : denotes (c :: w) = i.toInt) :
    Reads (.literal (.int i)) (c :: w) := by
  have hrange : InRange (denotes (c :: w)) := hi ▸ ⟨i.le_toInt, i.toInt_lt⟩
  have hvalue : strtoll (c :: w) = i :=
    Int64.toInt_inj.mp (((strtoll_eq_iff _).mpr hrange).trans hi)
  refine ⟨c, w, rfl, hspace, fun pos rest => ⟨⟨.int, c :: w, i, pos⟩, ?_, rfl⟩⟩
  obtain ⟨htake, hdrop⟩ := @takeWhile_word isDigit w rest hw (by decide)
  have hcond : (isDigit c || (c = 45 && (w ++ 32 :: rest).head?.any isDigit)) = true := by
    cases hc with
    | inl hdigit => rw [hdigit, Bool.true_or]
    | inr hminus => rw [hminus.2, hminus.1, Bool.and_true, decide_eq_true rfl, Bool.or_true]
  unfold lexToken
  rw [if_neg (by rw [hword]; exact Bool.false_ne_true), if_pos hcond, htake, hdrop]
  dsimp only
  rw [hvalue]

theorem reads_of_writes {x : Lexeme} {s : Bytes} (h : Writes x s) : Reads x s := by
  cases h with
  | keyword hw =>
    obtain ⟨hne, halpha⟩ := keywords_alpha _ hw
    cases s with
    | nil => exact absurd rfl hne
    | cons c w =>
      rw [map_cons, all_cons, Bool.and_eq_true] at halpha
      refine reads_word ?_ ?_ fun pos => ?_
      · unfold startsWord
        rw [toUpper_word halpha.1, Bool.true_or]
      · refine all_eq_true.mpr fun b hb => ?_
        have hupper := all_eq_true.mp halpha.2 _ (mem_map_of_mem hb)
        unfold inWord startsWord
        rw [toUpper_word hupper, Bool.true_or, Bool.true_or]
      · unfold word
        rw [if_pos hw]
        rfl
  | identifier hc hw hfree =>
    refine reads_word hc hw fun pos => ?_
    unfold word
    rw [if_neg hfree]
    rfl
  | @int i _ hs hi =>
    unfold IsInteger at hs
    split at hs
    · rename_i digits
      refine reads_int (by decide) (by decide) (.inr ⟨rfl, fun rest => ?_⟩) hs.2 hi
      cases digits with
      | nil => exact absurd rfl hs.1
      | cons d digits => exact (Bool.and_eq_true _ _ ▸ hs.2).1
    · cases s with
      | nil => exact absurd rfl hs.1
      | cons c w =>
        rw [all_cons, Bool.and_eq_true] at hs
        obtain ⟨hspace, hword⟩ := notSpace_of_digit c hs.2.1
        exact reads_int hspace hword (.inl hs.2.1) hs.2.2 hi
  | text s =>
    refine ⟨39, escapeQuotes s ++ [39], rfl, by decide, fun pos rest =>
      ⟨⟨.string, s, 0, pos⟩, ?_, rfl⟩⟩
    rw [append_assoc]
    have hstring := lexString_escape s rest
    unfold lexToken
    rw [if_neg (by decide), if_neg (by simp [isDigit]), if_pos rfl]
    dsimp only [singleton_append]
    rw [hstring]
  | symbol hs =>
    have hcases : s = [40] ∨ s = [41] ∨ s = [44] ∨ s = [59] ∨ s = [42] ∨ s = [61] ∨ s = [33, 61] ∨
        s = [60] ∨ s = [60, 61] ∨ s = [62] ∨ s = [62, 61] := by
      have hsymbols : symbols = [[40], [41], [44], [59], [42], [61], [33, 61], [60], [60, 61], [62],
        [62, 61]] := by decide +kernel
      simpa [hsymbols] using hs
    have hone : text "(),;*=" = [40, 41, 44, 59, 42, 61] := by decide +kernel
    rcases hcases with rfl | rfl | rfl | rfl | rfl | rfl | rfl | rfl | rfl | rfl | rfl
    all_goals
      refine ⟨_, _, rfl, by decide, fun pos rest => ⟨⟨.symbol, _, 0, pos⟩, ?_, rfl⟩⟩
      unfold lexToken
      rw [hone]
      rfl

theorem lexFrom_skip (size : Nat) (u l : Bytes) :
    lexFrom size u.length (u ++ l) = lexFrom size 0 l := by
  induction u with
  | nil => rfl
  | cons c u ih => exact ih

theorem lexFrom_writes {xs : List Lexeme} {pieces : List Bytes} (h : List.Forall₂ Writes xs pieces)
    (size : Nat) : ∃ ts, lexFrom size 0 (pieces.flatMap (· ++ [32])) = .ok ts ∧
      ts.map Token.lexeme = xs ++ [.atEnd] := by
  induction h with
  | nil => exact ⟨_, rfl, rfl⟩
  | @cons x s xs pieces hx hxs ih =>
    obtain ⟨ts, hts, hlexemes⟩ := ih
    have hinput : (s :: pieces).flatMap (· ++ [32]) = s ++ 32 :: pieces.flatMap (· ++ [32]) := by
      simp
    rw [hinput]
    generalize pieces.flatMap (· ++ [32]) = rest at hts
    obtain ⟨c, w, rfl, hspace, hread⟩ := reads_of_writes hx
    obtain ⟨t, htoken, rfl⟩ := hread (size - ((w ++ 32 :: rest).length + 1)) rest
    refine ⟨t :: ts, ?_, by rw [map_cons, hlexemes]; rfl⟩
    rw [cons_append, lexFrom, hspace, htoken]
    have hskip : (w ++ 32 :: rest).length - (32 :: rest).length = w.length := by
      rw [length_append, Nat.add_sub_cancel]
    dsimp only
    rw [hskip, lexFrom_skip, lexFrom]
    show (lexFrom size 0 rest).map (t :: ·) = _
    rw [hts]
    rfl

/-! ## The parser and its grammar. -/

/-- **The parser accepts exactly its grammar.**  On every token list with a `kEnd` it returns a
statement or an error, without reading behind that `kEnd`; it returns a statement exactly if the
tokens up to `kEnd` derive it.  A statement that is written out, in any case of its keywords, is
read back. -/
theorem parser_accepts_grammar :
    (∀ ts : List Token, .atEnd ∈ ts.map Token.lexeme →
      ((∃ s, Parser.parseTokens ts = .error (.status s)) ∨
        ∃ stmt rest, Parser.parseTokens ts = .ok (stmt, rest)) ∧
      ∀ stmt, (∃ rest, Parser.parseTokens ts = .ok (stmt, rest)) ↔ Parser.Accepted ts stmt) ∧
    ∀ (stmt : Statement) (pieces : List Bytes), stmt.Derivable →
      List.Forall₂ Writes stmt.lexemes pieces →
      parse (pieces.flatMap (· ++ [32])) = .ok stmt := by
  refine ⟨fun ts hend => ⟨?_, fun stmt => ⟨?_, ?_⟩⟩, fun stmt pieces hderivable hpieces => ?_⟩
  · exact (Parser.parseTokens_spec hend).imp id fun ⟨stmt, rest, hok, _⟩ => ⟨stmt, rest, hok⟩
  · rintro ⟨rest, hok⟩
    cases Parser.parseTokens_spec hend with
    | inl herror =>
      obtain ⟨s, hs⟩ := herror
      rw [hs] at hok
      cases hok
    | inr hresult =>
      obtain ⟨stmt', rest', hok', haccepted⟩ := hresult
      rw [hok'] at hok
      obtain rfl : stmt' = stmt := congrArg Prod.fst (Except.ok.inj hok)
      exact haccepted
  · rintro ⟨hderivable, semi, l, hsemi, hts⟩
    obtain ⟨rest, hok, -⟩ := Parser.runs_parseTokens hderivable hsemi ts hts
    exact ⟨rest, hok⟩
  · obtain ⟨ts, hlex, hts⟩ := lexFrom_writes hpieces (pieces.flatMap (· ++ [32])).length
    rw [← append_nil stmt.lexemes] at hts
    obtain ⟨rest, hok, -⟩ := Parser.runs_parseTokens hderivable (.inl rfl) ts hts
    unfold parse lex
    rw [hlex]
    dsimp only
    rw [hok]
    rfl

/-- A statement in words, with keywords in any case, and another as tokens with a semicolon. -/
theorem parser_accepts_grammar_drop :
    parse (text "drop Table t ") = .ok (.dropTable ⟨[116]⟩) ∧
    ∃ rest, Parser.parseTokens [⟨.keyword, text "SELECT", 0, 0⟩, ⟨.symbol, text "*", 0, 7⟩,
        ⟨.keyword, text "FROM", 0, 9⟩, ⟨.identifier, [116], 0, 14⟩, ⟨.symbol, text ";", 0, 15⟩, {}] =
      .ok (.select ⟨[116], [], []⟩, rest) := by
  obtain ⟨htokens, hwords⟩ := parser_accepts_grammar
  constructor
  · have hkw : ∀ {w : Bytes} {s : String}, w.map toUpper = text s → text s ∈ keywords →
        Writes (kw s) w := by
      intro w s hw hs
      unfold kw
      rw [← hw] at hs ⊢
      exact .keyword hs
    have hread := hwords (.dropTable ⟨[116]⟩) [text "drop", text "Table", [116]] trivial
      (.cons (hkw (by decide +kernel) (by decide +kernel))
        (.cons (hkw (by decide +kernel) (by decide +kernel))
          (.cons (.identifier (by decide) (by decide) (by decide +kernel)) .nil)))
    have htext : [text "drop", text "Table", [116]].flatMap (· ++ [32]) = text "drop Table t " := by
      decide +kernel
    rw [← htext]
    exact hread
  · refine ((htokens _ (by decide +kernel)).2 _).mpr ⟨trivial, [sym ";"], [], .inr rfl, ?_⟩
    decide +kernel

end Flotilla.Sql

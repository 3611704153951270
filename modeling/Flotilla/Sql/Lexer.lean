/-
  Sql.Lexer — statements as tokens (`sql/lexer.h`, `sql/lexer.cc`).

  Words are keywords in any case, or identifiers as they are written.  The value
  of an integer is what `strtoll` makes of its text: beyond 64 bits that is the
  largest or smallest value, and no error.
-/
import Flotilla.Sql.Ast

namespace Flotilla.Sql

/-! ## Characters and integers. -/

def isAlpha (c : UInt8) : Bool := (65 ≤ c && c ≤ 90) || (97 ≤ c && c ≤ 122)

/-- A letter or `_`. -/
def startsWord (c : UInt8) : Bool := isAlpha c || c = 95

def inWord (c : UInt8) : Bool := startsWord c || isDigit c

def toUpper (c : UInt8) : UInt8 := if 97 ≤ c && c ≤ 122 then c - 32 else c

/-- The integer that an optional `-` and digits denote. -/
def denotes : Bytes → Int
  | 45 :: digits => -digitsValue digits
  | digits => digitsValue digits

/-- `strtoll` of such a text: saturated. -/
def strtoll (s : Bytes) : Int64 :=
  if denotes s < -2 ^ 63 then Int64.minValue
  else if 2 ^ 63 ≤ denotes s then Int64.maxValue else Int64.ofInt (denotes s)

/-- An `int64_t`. -/
def InRange (n : Int) : Prop := -2 ^ 63 ≤ n ∧ n < 2 ^ 63

theorem strtoll_eq_iff (s : Bytes) : (strtoll s).toInt = denotes s ↔ InRange (denotes s) := by
  have hmin : Int64.minValue.toInt = -2 ^ 63 := by decide
  have hmax : Int64.maxValue.toInt = 2 ^ 63 - 1 := by decide
  unfold strtoll InRange
  by_cases hlow : denotes s < -2 ^ 63
  · rw [if_pos hlow, hmin]
    omega
  · rw [if_neg hlow]
    by_cases hhigh : 2 ^ 63 ≤ denotes s
    · rw [if_pos hhigh, hmax]
      omega
    · rw [if_neg hhigh, Int64.toInt_ofInt_of_le (by omega) (by omega)]
      omega

/-! ## Tokens. -/

inductive TokenType where
  | keyword
  | identifier
  | int
  | string
  | symbol
  | atEnd
  deriving DecidableEq, Repr

structure Token where
  type : TokenType := .atEnd
  text : Bytes := []
  intValue : Int64 := 0
  pos : Nat := 0
  deriving DecidableEq

def keywords : List Bytes :=
  ["CREATE", "TABLE", "INT", "TEXT", "PRIMARY", "KEY", "INSERT", "INTO", "VALUES", "SELECT",
    "FROM", "WHERE", "AND", "UPDATE", "SET", "DELETE", "DROP"].map text

def invalid (message : Bytes) : Status := ⟨.invalidArgument, message⟩

/-- The text of a string up to its closing quote, with what follows; `''` is a quote. -/
def lexString : Bytes → Option (Bytes × Bytes)
  | [] => none
  | 39 :: 39 :: rest => (lexString rest).map fun r => (39 :: r.1, r.2)
  | 39 :: rest => some ([], rest)
  | c :: rest => (lexString rest).map fun r => (c :: r.1, r.2)

def word (pos : Nat) (w : Bytes) : Token :=
  if w.map toUpper ∈ keywords then ⟨.keyword, w.map toUpper, 0, pos⟩ else ⟨.identifier, w, 0, pos⟩

/-- One round of the loop of `Lex` at a character that is no space: the token and what follows. -/
def lexToken (pos : Nat) (c : UInt8) (rest : Bytes) : Except Status (Token × Bytes) :=
  let offset := text " at offset " ++ decimal pos
  if startsWord c then
    .ok (word pos (c :: rest.takeWhile inWord), rest.dropWhile inWord)
  else if isDigit c || (c = 45 && rest.head?.any isDigit) then
    let digits := c :: rest.takeWhile isDigit
    .ok (⟨.int, digits, strtoll digits, pos⟩, rest.dropWhile isDigit)
  else if c = 39 then
    match lexString rest with
    | some (value, rest) => .ok (⟨.string, value, 0, pos⟩, rest)
    | none => .error (invalid (text "unterminated string literal" ++ offset))
  -- `<`, `>` or `!`, alone or with `=`
  else if c = 60 || c = 62 || c = 33 then
    if rest.head? = some 61 then .ok (⟨.symbol, [c, 61], 0, pos⟩, rest.tail)
    else if c = 33 then .error (invalid (text "expected !=" ++ offset))
    else .ok (⟨.symbol, [c], 0, pos⟩, rest)
  else if c ∈ text "(),;*=" then .ok (⟨.symbol, [c], 0, pos⟩, rest)
  else .error (invalid (text "unexpected character '" ++ [c] ++ text "'" ++ offset))

/-- The loop of `Lex`.  The first `skip` characters belong to the token before. -/
def lexFrom (size : Nat) : Nat → Bytes → Except Status (List Token)
  | _, [] => .ok [{ pos := size }]
  | skip + 1, _ :: rest => lexFrom size skip rest
  | 0, c :: rest =>
      if isSpace c then lexFrom size 0 rest
      else
        match lexToken (size - (rest.length + 1)) c rest with
        | .error s => .error s
        | .ok (token, after) => (lexFrom size (rest.length - after.length) rest).map (token :: ·)

def lex (input : Bytes) : Except Status (List Token) := lexFrom input.length 0 input

/-! ## What is in a token. -/

/-- No `kEnd`, and the value of an integer is that of its text. -/
structure Token.Ok (t : Token) : Prop where
  notEnd : t.type ≠ .atEnd
  value : t.type = .int → t.intValue = strtoll t.text

theorem word_ok (pos : Nat) (w : Bytes) : (word pos w).Ok := by
  unfold word
  split <;> exact ⟨nofun, nofun⟩

theorem lexToken_ok {pos : Nat} {c : UInt8} {rest after : Bytes} {t : Token}
    (h : lexToken pos c rest = .ok (t, after)) : t.Ok := by
  unfold lexToken at h
  dsimp only at h
  repeat' split at h
  all_goals cases h
  · exact word_ok _ _
  all_goals exact ⟨nofun, fun _ => by first | rfl | contradiction⟩

theorem lexFrom_tokens {size skip : Nat} {input : Bytes} {ts : List Token}
    (h : lexFrom size skip input = .ok ts) :
    ∃ init, ts = init ++ [{ pos := size }] ∧ ∀ t ∈ init, t.Ok := by
  fun_induction lexFrom size skip input generalizing ts with
  | case1 => exact ⟨[], (Except.ok.inj h).symm, nofun⟩
  | case2 skip c rest ih => exact ih h
  | case3 c rest hspace ih => exact ih h
  | case4 c rest hspace s herr => cases h
  | case5 c rest hspace token after htoken ih =>
    cases hrest : lexFrom size (rest.length - after.length) rest with
    | error s =>
      rw [hrest] at h
      cases h
    | ok ts' =>
      rw [hrest] at h
      obtain rfl := Except.ok.inj h
      obtain ⟨init, rfl, hinit⟩ := ih hrest
      refine ⟨token :: init, rfl, fun t ht => ?_⟩
      cases mem_cons.mp ht with
      | inl heq => exact heq ▸ lexToken_ok htoken
      | inr hmem => exact hinit t hmem

end Flotilla.Sql

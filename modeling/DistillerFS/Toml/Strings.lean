import DistillerFS.Toml.Lexer
import DistillerFS.Toml.Utf8

/-!
# The strings behind the tokens

`norm_lit_str`, `norm_basic_str` and `toml_rtos`. What they return is read as a C string, so
it ends at the first NUL, also at one that an escape has put there.
-/
namespace DistillerFS.Toml

/-- A control character other than the tab. -/
def controlChar (c : Char) : Bool :=
  c.toNat ≤ 0x08 || 0x0a ≤ c.toNat && c.toNat ≤ 0x1f || c.toNat = 0x7f

def format04x (n : ℕ) : CString :=
  let digits := Nat.toDigits 16 n
  List.replicate (4 - digits.length) '0' ++ digits

def invalidChar (c : Char) : CString := "invalid char U+".toList ++ format04x c.toNat

/-- The character must not stand in a string. -/
def forbidden (multiline : Bool) (c : Char) : Bool :=
  controlChar c && !(multiline && (c = '\r' || c = '\n'))

/-- `norm_lit_str`: the text, or the error. -/
def normLitStr (multiline : Bool) : CString → Except CString CString
  | [] => .ok []
  | ch :: sp =>
    if forbidden multiline ch then .error (invalidChar ch)
    else (normLitStr multiline sp).map (ch :: ·)

def hexValue (ch : Char) : Option ℕ :=
  if '0' ≤ ch ∧ ch ≤ '9' then some (ch.toNat - '0'.toNat)
  else if 'A' ≤ ch ∧ ch ≤ 'F' then some (ch.toNat - 'A'.toNat + 10)
  else none

/-- The loop over the digits of `\u` or `\U`, of which `k` are left of `nhex`: the code and
the text behind it. `ch` is the last character read. -/
def readHex (nhex : ℕ) : ℕ → Char → ℕ → CString → Except CString (ℕ × CString)
  | 0, _, ucs, sp => .ok (ucs, sp)
  | _ + 1, ch, _, [] =>
    .error ('\\' :: ch :: " expects ".toList ++ Nat.toDigits 10 nhex ++ " hex chars".toList)
  | k + 1, _, ucs, ch :: sp =>
    match hexValue ch with
    | none => .error "invalid hex chars for \\u or \\U".toList
    | some v => readHex nhex k ch (ucs * 16 + v) sp

def escapedChar (ch : Char) : Option Char :=
  if ch = 'b' then some '\x08'
  else if ch = 't' then some '\t'
  else if ch = 'n' then some '\n'
  else if ch = 'f' then some '\x0c'
  else if ch = 'r' then some '\r'
  else if ch = '"' then some '"'
  else if ch = '\\' then some '\\'
  else none

/-- One round of the loop of `norm_basic_str`: what it writes, and the text that is left. -/
def normStep (multiline : Bool) (ch : Char) (sp : CString) : Except CString (CString × CString) :=
  if ch ≠ '\\' then
    if forbidden multiline ch then .error (invalidChar ch) else .ok ([ch], sp)
  else if multiline = true ∧ sp ≠ [] ∧ endsLine sp = true then
    -- the end of a line behind a backslash, with all the blanks behind it
    .ok ([], sp.dropWhile (" \t\r\n".toList.contains ·))
  else
    match sp with
    | [] => .error "last backslash is invalid".toList
    | ch :: sp =>
      if ch = 'u' ∨ ch = 'U' then do
        let nhex := if ch = 'u' then 4 else 8
        let (ucs, sp) ← readHex nhex nhex ch 0 sp
        match tomlUcsToUtf8 ucs with
        | none => .error "illegal ucs code in \\u or \\U".toList
        | some bytes => .ok (bytes, sp)
      else
        match escapedChar ch with
        | none => .error ("illegal escape char \\".toList ++ [ch])
        | some c => .ok ([c], sp)

/-- `norm_basic_str`; every round takes one character at least. -/
def normBasicStr (multiline : Bool) : ℕ → CString → Except CString CString
  | _, [] => .ok []
  | 0, _ :: _ => .error []
  | fuel + 1, ch :: sp => do
    let (written, sp) ← normStep multiline ch sp
    let dst ← normBasicStr multiline fuel sp
    return written ++ dst

def cString (dst : CString) : CString := dst.takeWhile (· ≠ '\x00')

/-- `toml_rtos`; none is -1. -/
def tomlRtos (src : CString) : Option CString :=
  match src with
  | [] => none
  | qchar :: _ =>
    if ¬(qchar = '\'' ∨ qchar = '"') then none
    else
      let triple := [qchar, qchar, qchar]
      let bounds : Option (Bool × CString) :=
        if triple.isPrefixOf src then
          let sp := src.drop 3
          if 3 ≤ sp.length ∧ triple.isSuffixOf sp = true then
            let body := sp.take (sp.length - 3)
            -- a line break right behind the opening quotes is skipped
            if body.head? = some '\n' then some (true, body.drop 1)
            else if "\r\n".toList.isPrefixOf body then some (true, body.drop 2)
            else some (true, body)
          else none
        else
          let sp := src.drop 1
          if 1 ≤ sp.length ∧ [qchar].isSuffixOf sp = true then some (false, sp.take (sp.length - 1))
          else none
      bounds.bind fun (multiline, body) =>
        let dst := if qchar = '\'' then normLitStr multiline body
          else normBasicStr multiline body.length body
        dst.toOption.map cString

end DistillerFS.Toml

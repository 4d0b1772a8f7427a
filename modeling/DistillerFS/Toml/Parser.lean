import DistillerFS.Toml.Strings

/-!
# The parser of TOML files

`toml_parse` with its recursive descent. A table is a value, so what the source writes
through a pointer is returned, and a pointer into the tree is the way to its table.
The kind of the items of an array matters to the parser, their type to nobody here.
-/
namespace DistillerFS.Toml

inductive ArrayKind where
  | unset
  | value
  | array
  | table
  | mixed
  deriving DecidableEq, Repr

mutual
inductive Table where
  | mk (implicit readonly : Bool) (kval : List (CString × CString)) (arr : List (CString × Arr))
      (tab : List (CString × Table))
inductive Arr where
  | mk (kind : ArrayKind) (items : List Item)
inductive Item where
  | val (raw : CString)
  | arr (a : Arr)
  | tab (t : Table)
end

namespace Table

def implicit : Table → Bool
  | mk implicit _ _ _ _ => implicit

def readonly : Table → Bool
  | mk _ readonly _ _ _ => readonly

def kval : Table → List (CString × CString)
  | mk _ _ kval _ _ => kval

def arr : Table → List (CString × Arr)
  | mk _ _ _ arr _ => arr

def tab : Table → List (CString × Table)
  | mk _ _ _ _ tab => tab

/-- A table as `CALLOC` leaves it. -/
def empty : Table := mk false false [] [] []

def setImplicit (t : Table) (implicit : Bool) : Table := mk implicit t.readonly t.kval t.arr t.tab
def setReadonly (t : Table) : Table := mk t.implicit true t.kval t.arr t.tab
def setKval (t : Table) (kval : List (CString × CString)) : Table :=
  mk t.implicit t.readonly kval t.arr t.tab
def setArr (t : Table) (arr : List (CString × Arr)) : Table := mk t.implicit t.readonly t.kval arr t.tab
def setTab (t : Table) (tab : List (CString × Table)) : Table := mk t.implicit t.readonly t.kval t.arr tab

@[simp] theorem setArr_kval (t : Table) (arr : List (CString × Arr)) : (t.setArr arr).kval = t.kval := rfl
@[simp] theorem setArr_arr (t : Table) (arr : List (CString × Arr)) : (t.setArr arr).arr = arr := rfl
@[simp] theorem setArr_tab (t : Table) (arr : List (CString × Arr)) : (t.setArr arr).tab = t.tab := rfl
@[simp] theorem setTab_kval (t : Table) (tab : List (CString × Table)) : (t.setTab tab).kval = t.kval := rfl
@[simp] theorem setTab_arr (t : Table) (tab : List (CString × Table)) : (t.setTab tab).arr = t.arr := rfl
@[simp] theorem setTab_tab (t : Table) (tab : List (CString × Table)) : (t.setTab tab).tab = tab := rfl
@[simp] theorem setKval_kval (t : Table) (kval : List (CString × CString)) :
    (t.setKval kval).kval = kval := rfl
@[simp] theorem setKval_arr (t : Table) (kval : List (CString × CString)) :
    (t.setKval kval).arr = t.arr := rfl
@[simp] theorem setKval_tab (t : Table) (kval : List (CString × CString)) :
    (t.setKval kval).tab = t.tab := rfl

end Table

namespace Arr

def kind : Arr → ArrayKind
  | mk kind _ => kind

def items : Arr → List Item
  | mk _ items => items

@[simp] theorem mk_kind (kind : ArrayKind) (items : List Item) : (mk kind items).kind = kind := rfl
@[simp] theorem mk_items (kind : ArrayKind) (items : List Item) : (mk kind items).items = items := rfl

def empty : Arr := mk .unset []

/-- One item more; the kind is that of the first one, as long as all have it. -/
def add (a : Arr) (kind : ArrayKind) (item : Item) : Arr :=
  mk (if a.kind = .unset then kind else if a.kind ≠ kind then .mixed else a.kind) (a.items ++ [item])

end Arr

def replace {α : Type} (key : CString) (a : α) : List (CString × α) → List (CString × α)
  | [] => []
  | e :: es => if e.1 = key then (key, a) :: es else e :: replace key a es

def isalnum (c : Char) : Bool := 'A' ≤ c && c ≤ 'Z' || 'a' ≤ c && c ≤ 'z' || '0' ≤ c && c ≤ '9'

def normalizeKey (strtok : Token) : Except TomlError CString :=
  let text := strtok.text
  if text.head? = some '\'' ∨ text.head? = some '"' then
    let ch := text.headD '\x00'
    -- three quotes are taken off each end, or one
    let multiline := text[1]? = some ch ∧ text[2]? = some ch
    let n := if multiline then 3 else 1
    let body := (text.drop n).take (text.length - 2 * n)
    let ret : Except TomlError CString :=
      if ch = '\'' then .ok (cString body)
      else
        match normBasicStr multiline body.length body with
        | .error ebuf => .error (.syntaxError strtok.lineno ebuf)
        | .ok dst => .ok (cString dst)
    ret.bind fun ret => if '\n' ∈ ret then .error (.badKey strtok.lineno) else .ok ret
  else if text.all (fun k => isalnum k || k = '_' || k = '-') then .ok text
  else .error (.badKey strtok.lineno)

/-- `check_key`, and what the key leads to. -/
inductive Found where
  | absent
  | value (raw : CString)
  | array (a : Arr)
  | table (t : Table)

def checkKey (t : Table) (key : CString) : Found :=
  match t.kval.lookup key, t.arr.lookup key, t.tab.lookup key with
  | some raw, _, _ => .value raw
  | none, some a, _ => .array a
  | none, none, some sub => .table sub
  | none, none, none => .absent

/-- `create_keyval_in_table`, with the value that is written into the new entry. -/
def createKeyval (t : Table) (keytok : Token) (raw : CString) : Except TomlError Table := do
  let key ← normalizeKey keytok
  match checkKey t key with
  | .absent => return t.setKval (t.kval ++ [(key, raw)])
  | _ => .error (.keyExists keytok.lineno)

/-- `create_keytable_in_table`: the table with its new entry, and the key of that. A table
that was there implicitly only becomes explicit. -/
def createKeytable (t : Table) (keytok : Token) : Except TomlError (Table × CString) := do
  let key ← normalizeKey keytok
  match checkKey t key with
  | .absent => return (t.setTab (t.tab ++ [(key, .empty)]), key)
  | .table dest =>
    if dest.implicit = true then return (t.setTab (replace key (dest.setImplicit false) t.tab), key)
    else .error (.keyExists keytok.lineno)
  | _ => .error (.keyExists keytok.lineno)

def createKeyarray (t : Table) (keytok : Token) (a : Arr) : Except TomlError (Table × CString) := do
  let key ← normalizeKey keytok
  match checkKey t key with
  | .absent => return (t.setArr (t.arr ++ [(key, a)]), key)
  | _ => .error (.keyExists keytok.lineno)

def eatToken (t : Token) (typ : TokenType) (isdotspecial : Bool) : Except TomlError Token :=
  if t.tok ≠ typ then .error .internal else nextToken t isdotspecial

/-- The second bracket of `[[` or `]]`. -/
def eatSecond (llb : Bool) (t : Token) (typ : TokenType) : Except TomlError Token :=
  if llb then eatToken t typ true else .ok t

def skipNewlines (isdotspecial : Bool) : ℕ → Token → Except TomlError Token
  | 0, _ => .error .endless
  | fuel + 1, t =>
    if t.tok = .newline then do
      let t ← nextToken t isdotspecial
      if t.eof = true then return t else skipNewlines isdotspecial fuel t
    else .ok t

/-- The table that a dotted key goes on in, with its key: the one that is there, or a new one. -/
def dottedTable (tab : Table) (key : Token) : Except TomlError (Table × CString) := do
  let name ← normalizeKey key
  if (tab.tab.lookup name).isSome then return (tab, name) else createKeytable tab key

/-- The switch of `parse_array`. -/
def parseElement (parseArray : Token → Arr → Except TomlError (Token × Arr))
    (parseInlineTable : Token → Table → Except TomlError (Token × Table)) (t : Token) (arr : Arr) :
    Except TomlError (Token × Arr) :=
  match t.tok with
  | .string => do
    let arr := arr.add .value (.val t.text)
    let t ← eatToken t .string false
    return (t, arr)
  | .lbracket => do
    let (t, sub) ← parseArray t .empty
    return (t, arr.add .array (.arr sub))
  | .lbrace => do
    let (t, sub) ← parseInlineTable t .empty
    return (t, arr.add .table (.tab sub))
  | _ => .error (.syntaxError t.lineno "syntax error".toList)

mutual

/-- `parse_keyval`; the table is returned with its new entry. -/
def parseKeyval : ℕ → Token → Table → Except TomlError (Token × Table)
  | 0, _, _ => .error .endless
  | fuel + 1, key, tab =>
    if tab.readonly = true then
      .error (.syntaxError key.lineno "cannot insert new entry into existing table".toList)
    else do
      let t ← eatToken key .string true
      if t.tok = .dot then
        let (tab, name) ← dottedTable tab key
        let t ← nextToken t true
        match tab.tab.lookup name with
        | none => .error .dangling
        | some subtab =>
          let (t, subtab) ← parseKeyval fuel t subtab
          return (t, tab.setTab (replace name subtab tab.tab))
      else if t.tok ≠ .equal then .error (.syntaxError t.lineno "missing =".toList)
      else
        let t ← nextToken t false
        match t.tok with
        | .string =>
          let tab ← createKeyval tab key t.text
          let t ← nextToken t true
          return (t, tab)
        | .lbracket =>
          let (tab, name) ← createKeyarray tab key .empty
          let (t, arr) ← parseArray fuel t .empty
          return (t, tab.setArr (replace name arr tab.arr))
        | .lbrace =>
          let (tab, name) ← createKeytable tab key
          match tab.tab.lookup name with
          | none => .error .dangling
          | some nxttab =>
            let (t, nxttab) ← parseInlineTable fuel t nxttab
            return (t, tab.setTab (replace name nxttab tab.tab))
        | _ => .error (.syntaxError t.lineno "syntax error".toList)

def parseInlineTable : ℕ → Token → Table → Except TomlError (Token × Table)
  | 0, _, _ => .error .endless
  | fuel + 1, t, tab => do
    let t ← eatToken t .lbrace true
    let (t, tab) ← parseEntries fuel t tab
    let t ← eatToken t .rbrace true
    return (t, tab.setReadonly)

def parseEntries : ℕ → Token → Table → Except TomlError (Token × Table)
  | 0, _, _ => .error .endless
  | fuel + 1, t, tab =>
    if t.tok = .newline then
      .error (.syntaxError t.lineno "newline not allowed in inline table".toList)
    else if t.tok = .rbrace then .ok (t, tab)
    else if t.tok ≠ .string then .error (.syntaxError t.lineno "expect a string".toList)
    else do
      let (t, tab) ← parseKeyval fuel t tab
      if t.tok = .newline then
        .error (.syntaxError t.lineno "newline not allowed in inline table".toList)
      else if t.tok = .comma then
        let t ← eatToken t .comma true
        parseEntries fuel t tab
      else return (t, tab)

def parseArray : ℕ → Token → Arr → Except TomlError (Token × Arr)
  | 0, _, _ => .error .endless
  | fuel + 1, t, arr => do
    let t ← eatToken t .lbracket false
    let (t, arr) ← parseElements fuel t arr
    let t ← eatToken t .rbracket true
    return (t, arr)

def parseElements : ℕ → Token → Arr → Except TomlError (Token × Arr)
  | 0, _, _ => .error .endless
  | fuel + 1, t, arr => do
    let t ← skipNewlines false (t.ptr.length + 2) t
    if t.tok = .rbracket then return (t, arr)
    else
      let (t, arr) ← parseElement (parseArray fuel) (parseInlineTable fuel) t arr
      let t ← skipNewlines false (t.ptr.length + 2) t
      if t.tok = .comma then
        let t ← eatToken t .comma false
        parseElements fuel t arr
      else return (t, arr)

end

/-- One step of the way to a table: by its key, or as an item of an array. -/
inductive Step where
  | tab (key : CString)
  | item (key : CString) (idx : ℕ)
  deriving DecidableEq, Repr

/-- What is done to the table at the end of the way. -/
def modifyAt {α : Type} (f : Table → Except TomlError (α × Table)) :
    List Step → Table → Except TomlError (α × Table)
  | [], t => f t
  | .tab key :: way, t =>
    match t.tab.lookup key with
    | none => .error .dangling
    | some sub => do
      let (a, sub) ← modifyAt f way sub
      return (a, t.setTab (replace key sub t.tab))
  | .item key idx :: way, t =>
    match t.arr.lookup key with
    | none => .error .dangling
    | some arr =>
      match arr.items[idx]? with
      | some (.tab sub) => do
        let (a, sub) ← modifyAt f way sub
        return (a, t.setArr (replace key (.mk arr.kind (arr.items.set idx (.tab sub))) t.arr))
      | _ => .error .dangling

/-- `fill_tabpath`: the keys of a path and their tokens, of which `room` more fit, and the
token behind the path. -/
def fillTabpath (lineno : ℕ) : ℕ → Token → Except TomlError (List (CString × Token) × Token)
  | 0, _ => .error (.syntaxError lineno "table path is too deep; max allowed is 10.".toList)
  | room + 1, t =>
    if t.tok ≠ .string then .error (.syntaxError lineno "invalid or missing key".toList)
    else do
      let key ← normalizeKey t
      let tok := t
      let t ← nextToken t true
      if t.tok = .rbracket then return ([(key, tok)], t)
      else if t.tok ≠ .dot then .error (.syntaxError lineno "invalid key".toList)
      else
        let t ← nextToken t true
        let (path, t) ← fillTabpath lineno room t
        return ((key, tok) :: path, t)

/-- `walk_tabpath`: the tree with the tables that were missing on the way, and the way. -/
def walkTabpath : List (CString × Token) → Table → Except TomlError (List Step × Table)
  | [], t => .ok ([], t)
  | (key, tok) :: path, t =>
    match checkKey t key with
    | .table next => do
      let (way, next) ← walkTabpath path next
      return (.tab key :: way, t.setTab (replace key next t.tab))
    | .array arr =>
      if arr.kind ≠ .table then .error .internal
      else
        match arr.items.getLast? with
        | some (.tab next) => do
          let (way, next) ← walkTabpath path next
          let idx := arr.items.length - 1
          return (.item key idx :: way,
            t.setArr (replace key (.mk arr.kind (arr.items.set idx (.tab next))) t.arr))
        | some _ => .error .dangling
        | none => .error .internal
    | .value _ => .error (.keyExists tok.lineno)
    | .absent => do
      let (way, next) ← walkTabpath path (Table.empty.setImplicit true)
      return (.tab key :: way, t.setTab (t.tab ++ [(key, next)]))

/-- The array `z` of a table, with its key: the one that is there, or a new one. -/
def tableArray (tab : Table) (z : Token) : Except TomlError (Table × CString) := do
  let key ← normalizeKey z
  if (tab.arr.lookup key).isSome then return (tab, key) else createKeyarray tab z (.mk .table [])

/-- `[[x.y.z]]`: one table more in the array `z` of the table `x.y`. -/
def addToArray (z : Token) (curtab : Table) : Except TomlError (Step × Table) := do
  let (curtab, key) ← tableArray curtab z
  match curtab.arr.lookup key with
  | none => .error .dangling
  | some arr =>
    if arr.kind ≠ .table then .error (.syntaxError z.lineno "array mismatch".toList)
    else
      return (.item key arr.items.length,
        curtab.setArr (replace key (.mk arr.kind (arr.items ++ [.tab .empty])) curtab.arr))

/-- `[x.y.z]`: the table `z` in the table `x.y`. -/
def addTable (z : Token) (curtab : Table) : Except TomlError (Step × Table) := do
  let (curtab, key) ← createKeytable curtab z
  return (.tab key, curtab)

/-- `parse_select`: the token behind the line, the tree and the way to the current table. -/
def parseSelect (t : Token) (root : Table) : Except TomlError (Token × Table × List Step) := do
  let llb := t.ptr[1]? = some '['
  let t ← eatToken t .lbracket true
  let t ← eatSecond llb t .lbracket
  let (path, t) ← fillTabpath t.lineno 10 t
  match path.getLast? with
  | none => .error .dangling
  | some (_, z) =>
    let (way, root) ← walkTabpath path.dropLast root
    let (step, root) ← modifyAt (if llb then addToArray z else addTable z) way root
    if t.tok ≠ .rbracket then .error (.syntaxError t.lineno "expects ]".toList)
    else if llb ∧ t.ptr[1]? ≠ some ']' then .error (.syntaxError t.lineno "expects ]]".toList)
    else
      let t ← eatSecond llb t .rbracket
      let t ← eatToken t .rbracket true
      if t.tok ≠ .newline then .error (.syntaxError t.lineno "extra chars after ] or ]]".toList)
      else return (t, root, way ++ [step])

/-- `context_t` in the loop of `toml_parse`: the token, the tree and the way to the current
table. -/
structure Context where
  tok : Token
  root : Table
  curtab : List Step

def parseLine (ctx : Context) : Except TomlError Context :=
  match ctx.tok.tok with
  | .newline => do
    let t ← nextToken ctx.tok true
    return ⟨t, ctx.root, ctx.curtab⟩
  | .string => do
    let (t, root) ← modifyAt (parseKeyval (2 * ctx.tok.ptr.length + 2) ctx.tok) ctx.curtab ctx.root
    if t.tok ≠ .newline then .error (.syntaxError t.lineno "extra chars after value".toList)
    else
      let t ← eatToken t .newline true
      return ⟨t, root, ctx.curtab⟩
  | .lbracket => do
    let (t, root, curtab) ← parseSelect ctx.tok ctx.root
    return ⟨t, root, curtab⟩
  | _ => .error (.syntaxError ctx.tok.lineno "syntax error".toList)

/-- The loop of `toml_parse`. -/
def parseLines : ℕ → Context → Except TomlError Table
  | 0, _ => .error .endless
  | fuel + 1, ctx =>
    if ctx.tok.eof = true then .ok ctx.root
    else do
      let ctx ← parseLine ctx
      parseLines fuel ctx

/-- The artificial line break in front of the text. -/
def firstToken (conf : CString) : Token where
  tok := .newline
  lineno := 1
  ptr := conf
  len := 0
  eof := false

def startContext (conf : CString) : Context := ⟨firstToken conf, .empty, []⟩

def tomlParse (conf : CString) : Except TomlError Table :=
  parseLines (conf.length + 2) (startContext conf)

end DistillerFS.Toml

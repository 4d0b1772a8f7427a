import DistillerFS.Foundations.Delimited
import DistillerFS.Recording.Operations
import Mathlib.Data.List.TakeWhile

/-!
# The script that reads the report

`process_log.lua`, from the lines of the log to the lines it prints. A printed line
is a `Command`, with `render` the text of it.
-/
namespace DistillerFS
open Foundations

/-- `string.find(s, c)` for a character without a special meaning in patterns. -/
def stringFind (s : CString) (c : Char) : Bool := s.contains c

/-- The loop of `string:split`: `field` is what has been read since the last delimiter. -/
def stringSplitFrom (delimiter : Char) : CString → CString → List CString
  | field, [] => [field]
  | field, c :: rest =>
    if c = delimiter then field :: stringSplitFrom delimiter [] rest
    else stringSplitFrom delimiter (field ++ [c]) rest

def stringSplit (self : CString) (delimiter : Char) : List CString :=
  stringSplitFrom delimiter [] self

theorem stringSplitFrom_eq (delimiter : Char) (field s : CString) :
    stringSplitFrom delimiter field s = (s.splitOn delimiter).modifyHead (field ++ ·) := by
  induction s generalizing field with
  | nil => simp [stringSplitFrom]
  | cons c rest ih =>
    rw [stringSplitFrom, List.splitOn_cons_eq_if_modifyHead]
    by_cases h : c = delimiter
    · rw [if_pos h, if_pos (beq_iff_eq.mpr h), ih]
      cases List.splitOn delimiter rest <;> simp
    · rw [if_neg h, if_neg (by simpa using h), ih, List.modifyHead_modifyHead]
      congr 1
      funext p
      simp

theorem stringSplit_eq_splitOn (s : CString) (delimiter : Char) :
    stringSplit s delimiter = s.splitOn delimiter := by
  rw [stringSplit, stringSplitFrom_eq]
  cases List.splitOn delimiter s <;> simp

/-- `str:match("(.*/)")`: the longest prefix that ends in a slash. -/
def getDir (str : CString) : Option CString :=
  match (str.reverse.dropWhile (· ≠ '/')).reverse with
  | [] => none
  | dir => some dir

/-- What `process_log.lua` prints, one constructor for each `print`. `mkdirDir` is the
directory of a path and `mkdirPath` the path itself. -/
inductive Command where
  | mkdirDir (dir : CString)
  | mkdirPath (path : CString)
  | cp (src dst : CString)
  | touch (path : CString)
  | echo (count : ℕ)
  | wrongFormat (line : CString)
  deriving DecidableEq, Repr

/-- The printed text. `print` joins its arguments with tabs. -/
def Command.render : Command → CString
  | .mkdirDir dir => "mkdir -p \"".toList ++ dir ++ "\"".toList
  | .mkdirPath path => "mkdir -p \"".toList ++ path ++ "\"".toList
  | .cp src dst => "cp -a \"".toList ++ src ++ "\" \"".toList ++ dst ++ "\"".toList
  | .touch path => "touch \"".toList ++ path ++ "\"".toList
  | .echo count => "echo \"".toList ++ Nat.toDigits 10 count ++ " lines processed.\"".toList
  | .wrongFormat line => "!!!! Line \t".toList ++ line ++ "\thas wrong format!".toList

def opensFile (flags : CString) : Bool :=
  stringFind flags 'O' || stringFind flags 'R' || stringFind flags 'r'

/-- The exclusion compares the first seven characters of the directory with the
ten characters of "/prebuilts". -/
def processPath (path flags fromPrefix toPrefix : CString) : List Command :=
  match getDir path with
  | none => []
  | some dir =>
    let to_dir := toPrefix ++ dir
    let from_path := fromPrefix ++ path
    let to_path := toPrefix ++ path
    if opensFile flags then
      (if 1 < dir.length then [.mkdirDir to_dir] else []) ++ [.cp from_path to_path]
    else if stringFind flags 'G' then
      if dir.take 7 ≠ "/prebuilts".toList then
        if stringFind flags 'd' then [.mkdirPath to_path]
        else [.mkdirDir to_dir, .touch to_path]
      else []
    else []

/-- The exclusion never applies: seven characters are not ten. -/
theorem take_ne_prebuilts (dir : CString) : dir.take 7 ≠ "/prebuilts".toList := by
  intro h
  have hlength := congrArg List.length h
  rw [List.length_take, show "/prebuilts".toList.length = 10 from rfl] at hlength
  omega

inductive LogLine where
  | comment
  | wrongFormat (line : CString)
  | entry (flags path : CString)
  deriving DecidableEq, Repr

def readLine (line : CString) : LogLine :=
  if line.take 1 = ['#'] then .comment
  else
    match stringSplit line ':' with
    | [flags, _, path] => .entry flags path
    | _ => .wrongFormat line

theorem readLine_entry {line flags path : CString} (h : readLine line = .entry flags path) :
    ∃ count, line = flags ++ ':' :: (count ++ ':' :: path) ∧ ':' ∉ flags ∧ ':' ∉ path := by
  unfold readLine at h
  split_ifs at h
  rw [stringSplit_eq_splitOn] at h
  have hjoin : [':'].intercalate (line.splitOn ':') = line := List.intercalate_splitOn ':'
  have hnot : ∀ piece ∈ line.splitOn ':', ':' ∉ piece := fun _ => not_mem_of_mem_splitOn
  split at h
  · rename_i count _ hsplit
    cases h
    rw [hsplit] at hjoin hnot
    exact ⟨count, by simpa [List.intercalate] using hjoin.symm, hnot _ (by simp), hnot _ (by simp)⟩
  · cases h

/-- The main loop, from the number of lines processed so far. -/
def mainLoop (fromPrefix toPrefix : CString) : ℕ → List CString → List Command
  | _, [] => []
  | count, line :: rest =>
    match readLine line with
    | .comment => mainLoop fromPrefix toPrefix count rest
    | .wrongFormat line => .wrongFormat line :: mainLoop fromPrefix toPrefix count rest
    | .entry flags path =>
      processPath path flags fromPrefix toPrefix ++
        (if (count + 1) % 100 = 0 then [.echo (count + 1)] else []) ++
        mainLoop fromPrefix toPrefix (count + 1) rest

def ioLines (content : CString) : List CString := records '\n' content

def processLog (content fromPrefix toPrefix : CString) : List Command :=
  mainLoop fromPrefix toPrefix 0 (ioLines content)

theorem getDir_append {dir name : CString} (h : '/' ∉ name) :
    getDir (dir ++ '/' :: name) = some (dir ++ ['/']) := by
  have hdrop : ((dir ++ '/' :: name).reverse.dropWhile (· ≠ '/')) = '/' :: dir.reverse := by
    rw [List.reverse_append, List.reverse_cons, List.append_assoc, List.dropWhile_append_of_pos]
    · simp
    · intro c hc
      have hne : c ≠ '/' := by
        rintro rfl
        exact h (List.mem_reverse.mp hc)
      simpa using hne
  unfold getDir
  rw [hdrop]
  simp

theorem getDir_none {path : CString} (h : '/' ∉ path) : getDir path = none := by
  have hdrop : path.reverse.dropWhile (· ≠ '/') = [] := by
    apply List.dropWhile_eq_nil_iff.mpr
    intro c hc
    have hne : c ≠ '/' := by
      rintro rfl
      exact h (List.mem_reverse.mp hc)
    simpa using hne
  unfold getDir
  rw [hdrop]
  rfl

/-- Every path with a slash has a directory part. -/
theorem exists_getDir {path : CString} (h : '/' ∈ path) : ∃ dir, getDir path = some dir := by
  obtain ⟨name, dir, hsplit, hname⟩ := List.eq_append_cons_of_mem (List.mem_reverse.mpr h)
  have hpath : path = dir.reverse ++ '/' :: name.reverse := by
    rw [← List.reverse_reverse path, hsplit]
    simp
  rw [hpath, getDir_append (by simpa using hname)]
  exact ⟨_, rfl⟩

end DistillerFS

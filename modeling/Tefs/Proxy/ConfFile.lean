import Mathlib.Data.List.Basic

/-! # The configuration of the proxy

Source: `gvfs_conf_read_token`, `gvfs_conf_parse_buf` and `gvfs_conf_parse_file` of `gvfsproxy/src/core/gvfs_conf_file.c`.

A text is a list of bytes, and `pos` is what is left of it. The characters from `start` on are kept until the word is
found, and dropped then. Memory is taken to be there. Every file that is included is open while it is parsed, so the
descriptors bound how deep files include each other.
-/

namespace Tefs.Proxy.ConfFile
set_option autoImplicit false

abbrev Byte := BitVec 8

/-- A word, without the NUL behind it -/
abbrev Word := List Byte

abbrev byte (c : Char) : Byte := BitVec.ofNat 8 c.toNat

/-! ## Tokens -/

inductive Code
  | blockStart
  | blockDone
  | next
  | error
  | atEnd
  deriving DecidableEq, Repr

/-- The flags of `gvfs_conf_read_token`, the characters from `start` to `pos`, and `conf->stg` -/
structure Scan where
  needSpace : Bool := false
  lastSpace : Bool := true
  sharpComment : Bool := false
  quoted : Bool := false
  sQuoted : Bool := false
  dQuoted : Bool := false
  raw : List Byte := []
  stg : List Word := []
  deriving DecidableEq

inductive Step
  | more (s : Scan)
  | token (code : Code) (stg : List Word)

abbrev Blank (ch : Byte) : Prop := ch = byte ' ' ∨ ch = byte '\t' ∨ ch = byte '\r' ∨ ch = byte '\n'

/-- What `*src` and `src[1]` stand for together -/
def escape (src src1 : Byte) : Option Byte :=
  if src = byte '\\' then
    if src1 = byte '"' ∨ src1 = byte '\'' ∨ src1 = byte '\\' then some src1
    else if src1 = byte 't' then some (byte '\t')
    else if src1 = byte 'r' then some (byte '\r')
    else if src1 = byte 'n' then some (byte '\n')
    else none
  else none

/-- The loop from `src` to `dst`; `ch` is the character behind the last. -/
def unescape (ch : Byte) : List Byte → List Byte
  | [] => []
  | [src] => [(escape src ch).getD src]
  | src :: src1 :: rest =>
    match escape src src1 with
    | some dst => dst :: unescape ch rest
    | none => src :: unescape ch (src1 :: rest)

/-- The word that ends before `ch`, as a C string -/
def Scan.word (s : Scan) (ch : Byte) : Word := (unescape ch s.raw).takeWhile (· ≠ 0)

/-- The characters of a word -/
def Scan.stepWord (s : Scan) (ch : Byte) : Step :=
  if ch = byte '{' then .more { s with raw := s.raw ++ [ch] }
  else if ch = byte '\\' then .more { s with quoted := true, raw := s.raw ++ [ch] }
  else
    let s' :=
      if s.dQuoted then if ch = byte '"' then some { s with dQuoted := false, needSpace := true } else none
      else if s.sQuoted then if ch = byte '\'' then some { s with sQuoted := false, needSpace := true } else none
      else if Blank ch ∨ ch = byte ';' ∨ ch = byte '{' then some { s with lastSpace := true } else none
    match s' with
    | none => .more { s with raw := s.raw ++ [ch] }
    | some s' =>
      let stg := s.stg ++ [s.word ch]
      if ch = byte ';' then .token .next stg
      else if ch = byte '{' then .token .blockStart stg
      else .more { s' with raw := [], stg := stg }

/-- A character with `last_space` -/
def Scan.stepSpace (s : Scan) (ch : Byte) : Step :=
  if Blank ch then .more s
  else if ch = byte ';' ∨ ch = byte '{' then
    if s.stg.length = 0 then .token .error s.stg
    else if ch = byte '{' then .token .blockStart s.stg
    else .token .next s.stg
  else if ch = byte '}' then
    if s.stg.length ≠ 0 then .token .error s.stg else .token .blockDone s.stg
  else if ch = byte '#' then .more { s with sharpComment := true }
  else if ch = byte '\\' then .more { s with quoted := true, lastSpace := false, raw := [ch] }
  else if ch = byte '"' then .more { s with dQuoted := true, lastSpace := false, raw := [] }
  else if ch = byte '\'' then .more { s with sQuoted := true, lastSpace := false, raw := [] }
  else .more { s with lastSpace := false, raw := [ch] }

/-- A character with `need_space` -/
def Scan.stepNeeded (s : Scan) (ch : Byte) : Step :=
  if Blank ch then .more { s with lastSpace := true, needSpace := false }
  else if ch = byte ';' then .token .next s.stg
  else if ch = byte '{' then .token .blockStart s.stg
  else .token .error s.stg

def Scan.step (s : Scan) (ch : Byte) : Step :=
  let s := if ch = byte '\n' then { s with sharpComment := false } else s
  if s.sharpComment then .more s
  else if s.quoted then .more { s with quoted := false, raw := s.raw ++ [ch] }
  else if s.needSpace then s.stepNeeded ch
  else if s.lastSpace then s.stepSpace ch
  else s.stepWord ch

/-- The code, `conf->stg`, and what is left of the text -/
def readToken (s : Scan) : List Byte → Code × List Word × List Byte
  | [] => (if 0 < s.stg.length ∨ s.lastSpace = false then .error else .atEnd, s.stg, [])
  | ch :: text =>
    match s.step ch with
    | .more s => readToken s text
    | .token code stg => (code, stg, text)

/-! ## Directives and blocks -/

/-- A `gvfs_conf_t` with the list at `rship.next`, which is `NULL` if that is empty -/
inductive Conf where
  | node (stg : List Word) (child : List Conf)

/-- The file name up to its last slash -/
def directory (file : Word) : Word :=
  (file.reverse.dropWhile fun c => c ≠ byte '/' ∧ c ≠ byte '\\').reverse

def includeName : Word := ['i', 'n', 'c', 'l', 'u', 'd', 'e'].map byte

/-- What a directive includes; `parseFile` is `gvfs_conf_parse_file`. -/
def included (parseFile : Word → Option (List Conf)) (file : Word) : List Word → Option (List Conf)
  | word0 :: word1 :: _ => if word0 = includeName then parseFile (directory file ++ word1) else some []
  | _ => some []

/-- The list and what is left of the text; the list is empty for `NULL`, and `none` is a loop that is not done after
`fuel` tokens. `root` has been read. -/
def parseBuf (parseFile : Word → Option (List Conf)) (file : Word) :
    ℕ → List Conf → List Byte → Option (List Conf × List Byte)
  | 0, _, _ => none
  | fuel + 1, root, text =>
    match readToken {} text with
    | (.next, stg, text) => do
      let nodes ← included parseFile file stg
      parseBuf parseFile file fuel (root ++ .node stg [] :: nodes) text
    | (.blockStart, stg, text) => do
      let (child, text) ← parseBuf parseFile file fuel [] text
      parseBuf parseFile file fuel (root ++ [.node stg child]) text
    | (.blockDone, _, text) => some (root, text)
    | (.atEnd, _, text) => some (root, text)
    | (.error, _, text) => some ([], text)

/-- `files` is what can be read, and the number that of the free descriptors. -/
def parseFile (files : Word → Option (List Byte)) : ℕ → Word → Option (List Conf)
  | 0, _ => some []
  | fds + 1, file =>
    match files file with
    | none => some []
    | some buf =>
      if buf.length = 0 then some []
      else (parseBuf (parseFile files fds) file (buf.length + 1) [] buf).map Prod.fst

/-- `gvfs_conf_parse_buf` for the text of a file that is not included -/
def parse (files : Word → Option (List Byte)) (fds : ℕ) (file : Word) (text : List Byte) :
    Option (List Conf × List Byte) :=
  parseBuf (parseFile files fds) file (text.length + 1) [] text

/-! ## Termination -/

theorem readToken_length (s : Scan) (text : List Byte) :
    (readToken s text).2.2.length ≤ text.length - 1 := by
  induction text generalizing s with
  | nil => exact Nat.zero_le _
  | cons ch text ih =>
    rw [readToken]
    cases s.step ch with
    | token code stg => exact Nat.le_refl text.length
    | more s =>
      have hrest := ih s
      rw [List.length_cons]
      dsimp only
      omega

/-- Nothing is left to read, and no word has been read: the code that ends a call is returned. -/
theorem readToken_nil : readToken {} [] = (.atEnd, [], []) := rfl

section

variable {parseFile : Word → Option (List Conf)} (file : Word)

theorem included_isSome (hfile : ∀ name, (parseFile name).isSome) (stg : List Word) :
    ∃ nodes, included parseFile file stg = some nodes := by
  unfold included
  split
  · split
    · exact Option.isSome_iff_exists.mp (hfile _)
    · exact ⟨_, rfl⟩
  · exact ⟨_, rfl⟩

/-- Every token takes a character, or there are none left and the call ends. -/
theorem parseBuf_isSome (hfile : ∀ name, (parseFile name).isSome) (fuel : ℕ) (root : List Conf) (text : List Byte)
    (hfuel : text.length < fuel) :
    ∃ nodes rest, parseBuf parseFile file fuel root text = some (nodes, rest) ∧ rest.length ≤ text.length := by
  induction fuel generalizing root text with
  | zero => omega
  | succ fuel ih =>
    have hlen := readToken_length {} text
    have hpos : text = [] ∨ 0 < text.length := by
      cases text with
      | nil => exact .inl rfl
      | cons ch text => exact .inr (Nat.succ_pos _)
    rw [parseBuf]
    generalize hread : readToken {} text = token at hlen
    obtain ⟨code, stg, rest⟩ := token
    dsimp only at hlen
    have hcode : text = [] → code = .atEnd := by
      rintro rfl
      rw [readToken_nil] at hread
      cases hread
      rfl
    cases code with
    | blockDone => exact ⟨root, rest, rfl, by omega⟩
    | atEnd => exact ⟨root, rest, rfl, by omega⟩
    | error => exact ⟨[], rest, rfl, by omega⟩
    | next =>
      obtain ⟨more, hmore⟩ := included_isSome file hfile stg
      have hlt := hpos.resolve_left fun h => Code.noConfusion (hcode h)
      obtain ⟨nodes, rest', hrun, hrest⟩ := ih (root ++ .node stg [] :: more) rest (by omega)
      exact ⟨nodes, rest', by simp [hmore, hrun], by omega⟩
    | blockStart =>
      have hlt := hpos.resolve_left fun h => Code.noConfusion (hcode h)
      obtain ⟨child, rest', hchild, hrest'⟩ := ih [] rest (by omega)
      obtain ⟨nodes, rest'', hrun, hrest⟩ := ih (root ++ [.node stg child]) rest' (by omega)
      exact ⟨nodes, rest'', by simp [hchild, hrun], by omega⟩

end

/-- With one descriptor less in each, files that include each other come to an end. -/
theorem parseFile_isSome (files : Word → Option (List Byte)) (fds : ℕ) (file : Word) :
    (parseFile files fds file).isSome := by
  induction fds generalizing file with
  | zero => rfl
  | succ fds ih =>
    rw [parseFile]
    split
    · rfl
    · split
      · rfl
      · next buf _ _ =>
        obtain ⟨nodes, rest, hrun, -⟩ := parseBuf_isSome file ih (buf.length + 1) [] buf (Nat.lt_succ_self _)
        rw [hrun]
        rfl

end Tefs.Proxy.ConfFile

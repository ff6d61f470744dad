import Mathlib.Data.List.TakeWhile
import Tefs.Proxy.ConfFile

/-! # Printed configurations are read back

What a tree may look like as a text, and that `gvfs_conf_parse_buf` reads each such text back to the tree. Between two
tokens the reader has no flag but `last_space` set, or, right behind a quote, `need_space`.
-/

namespace Tefs.Proxy.ConfFile
set_option autoImplicit false

/-! ## Texts of a tree -/

/-- White space, with a comment up to the end of the line behind some of it -/
inductive Gap : List Byte → Prop
  | nil : Gap []
  | blank {ch : Byte} {gap : List Byte} : Blank ch → Gap gap → Gap (ch :: gap)
  | comment {ch : Byte} {line gap : List Byte} : Blank ch → byte '\n' ∉ line → Gap (byte '\n' :: gap) →
      Gap (ch :: byte '#' :: line ++ byte '\n' :: gap)

def escapes : List (Byte × Byte) :=
  [(byte '"', byte '"'), (byte '\'', byte '\''), (byte '\\', byte '\\'), (byte 't', byte '\t'), (byte 'r', byte '\r'),
    (byte 'n', byte '\n')]

/-- What a word may look like between double quotes -/
inductive Escaped : Word → List Byte → Prop
  | nil : Escaped [] []
  | plain {c : Byte} {word : Word} {raw : List Byte} : c ≠ byte '"' → c ≠ byte '\\' → Escaped word raw →
      Escaped (c :: word) (c :: raw)
  | escape {src1 dst : Byte} {word : Word} {raw : List Byte} : (src1, dst) ∈ escapes → Escaped word raw →
      Escaped (dst :: word) (byte '\\' :: src1 :: raw)

def inQuotes (raw : List Byte) : List Byte := byte '"' :: raw ++ [byte '"']

inductive Words : List Word → List Byte → Prop
  | one {word : Word} {raw : List Byte} : Escaped word raw → Words [word] (inQuotes raw)
  | more {word : Word} {words : List Word} {raw gap text : List Byte} : Escaped word raw → Gap gap → gap ≠ [] →
      Words words text → Words (word :: words) (inQuotes raw ++ gap ++ text)

/-- The texts of a list of nodes -/
inductive Prints : List Conf → List Byte → Prop
  | nil {gap : List Byte} : Gap gap → Prints [] gap
  | directive {stg : List Word} {nodes : List Conf} {gap words gap' text : List Byte} : Gap gap → Words stg words →
      Gap gap' → Prints nodes text → Prints (.node stg [] :: nodes) (gap ++ words ++ gap' ++ byte ';' :: text)
  | block {stg : List Word} {child nodes : List Conf} {gap words gap' inner text : List Byte} : Gap gap →
      Words stg words → Gap gap' → child ≠ [] → Prints child inner → Prints nodes text →
      Prints (.node stg child :: nodes) (gap ++ words ++ gap' ++ byte '{' :: inner ++ byte '}' :: text)

/-- Every node has a word, none has a NUL, and nothing is included. -/
inductive Tree : List Conf → Prop
  | nil : Tree []
  | cons {stg : List Word} {child nodes : List Conf} : stg ≠ [] → (∀ word ∈ stg, 0 ∉ word) →
      stg.head? ≠ some includeName → Tree child → Tree nodes → Tree (.node stg child :: nodes)

/-! ## A printer -/

def printEscaped (word : Word) : List Byte :=
  word.flatMap fun c => if c = byte '"' ∨ c = byte '\\' then [byte '\\', c] else [c]

def printWords : List Word → List Byte
  | [] => []
  | [word] => inQuotes (printEscaped word)
  | word :: words => inQuotes (printEscaped word) ++ [byte ' '] ++ printWords words

mutual

def Conf.print : Conf → List Byte
  | .node stg child =>
    [byte ' '] ++ printWords stg ++
      if child.isEmpty then [byte ';'] else [byte ' ', byte '{'] ++ printNodes child ++ [byte '}']

def printNodes : List Conf → List Byte
  | [] => [byte ' ']
  | node :: nodes => node.print ++ printNodes nodes

end

theorem gap_blank : Gap [byte ' '] := .blank (.inl rfl) .nil

theorem escaped_print (word : Word) : Escaped word (printEscaped word) := by
  induction word with
  | nil => exact .nil
  | cons c word ih =>
    rw [printEscaped, List.flatMap_cons]
    split
    · next h =>
      apply Escaped.escape _ ih
      rcases h with rfl | rfl <;> decide
    · next h =>
      push Not at h
      exact .plain h.1 h.2 ih

theorem words_print {stg : List Word} (h : stg ≠ []) : Words stg (printWords stg) := by
  induction stg with
  | nil => exact absurd rfl h
  | cons word stg ih =>
    cases stg with
    | nil => exact .one (escaped_print word)
    | cons word' stg => exact .more (escaped_print word) gap_blank (List.cons_ne_nil _ _) (ih (List.cons_ne_nil _ _))

/-- Every tree can be printed. -/
theorem prints_print {nodes : List Conf} (h : Tree nodes) : Prints nodes (printNodes nodes) := by
  induction h with
  | nil => exact .nil gap_blank
  | @cons stg child nodes hne _ _ _ _ ihChild ihNodes =>
    rw [printNodes, Conf.print]
    cases child with
    | nil =>
      have h := Prints.directive gap_blank (words_print hne) .nil ihNodes
      simpa using h
    | cons node child =>
      have h := Prints.block gap_blank (words_print hne) gap_blank (List.cons_ne_nil _ _) ihChild ihNodes
      simpa using h

/-! ## Single characters -/

section

variable {stg : List Word} {ch : Byte} {text : List Byte}

theorem readToken_more {s s' : Scan} (h : s.step ch = .more s') : readToken s (ch :: text) = readToken s' text := by
  rw [readToken, h]

theorem readToken_token {s : Scan} {code : Code} (h : s.step ch = .token code stg) :
    readToken s (ch :: text) = (code, stg, text) := by
  rw [readToken, h]

/-- Between two tokens -/
abbrev between (stg : List Word) : Scan := { stg := stg }

/-- Behind a quote -/
abbrev closed (stg : List Word) : Scan := { needSpace := true, lastSpace := false, stg := stg }

abbrev comment (stg : List Word) : Scan := { sharpComment := true, stg := stg }

abbrev doubleQuoted (stg : List Word) (raw : List Byte) : Scan :=
  { lastSpace := false, dQuoted := true, raw := raw, stg := stg }

theorem step_between_blank (h : Blank ch) : (between stg).step ch = .more (between stg) := by
  simp [Scan.step, Scan.stepSpace, h]

theorem step_closed_blank (h : Blank ch) : (closed stg).step ch = .more (between stg) := by
  simp [Scan.step, Scan.stepNeeded, h]

theorem step_comment (h : ch ≠ byte '\n') : (comment stg).step ch = .more (comment stg) := by
  simp [Scan.step, h]

theorem step_doubleQuoted {raw : List Byte} (hquote : ch ≠ byte '"') (hslash : ch ≠ byte '\\') :
    (doubleQuoted stg raw).step ch = .more (doubleQuoted stg (raw ++ [ch])) := by
  simp [Scan.step, Scan.stepWord, hquote, hslash]

theorem step_doubleQuoted_slash {raw : List Byte} : (doubleQuoted stg raw).step (byte '\\') =
    .more { doubleQuoted stg (raw ++ [byte '\\']) with quoted := true } := by
  rfl

theorem step_slash {raw : List Byte} : Scan.step { doubleQuoted stg raw with quoted := true } ch =
    .more (doubleQuoted stg (raw ++ [ch])) := by
  simp [Scan.step]

theorem step_doubleQuoted_end {raw : List Byte} : (doubleQuoted stg raw).step (byte '"') =
    .more (closed (stg ++ [(unescape (byte '"') raw).takeWhile (· ≠ 0)])) := by
  rfl

/-! ## Gaps and words -/

theorem Gap.exists_blank {gap : List Byte} (h : Gap gap) (hne : gap ≠ []) : ∃ ch rest, gap = ch :: rest ∧ Blank ch := by
  cases h with
  | nil => exact absurd rfl hne
  | blank hblank _ => exact ⟨_, _, rfl, hblank⟩
  | comment hblank _ _ => exact ⟨_, _, rfl, hblank⟩

/-- A comment goes up to the end of its line. -/
theorem readToken_comment {line : List Byte} (h : byte '\n' ∉ line) (stg : List Word) (text : List Byte) :
    readToken (comment stg) (line ++ byte '\n' :: text) = readToken (between stg) (byte '\n' :: text) := by
  induction line with
  | nil => rfl
  | cons ch line ih =>
    obtain ⟨hch, hline⟩ := not_or.mp (mt List.mem_cons.mpr h)
    rw [List.cons_append, readToken_more (step_comment (Ne.symm hch))]
    exact ih hline

theorem readToken_gap {gap : List Byte} (h : Gap gap) (stg : List Word) (text : List Byte) :
    readToken (between stg) (gap ++ text) = readToken (between stg) text := by
  induction h with
  | nil => rfl
  | blank hblank _ ih =>
    rw [List.cons_append, readToken_more (step_between_blank hblank)]
    exact ih
  | @comment ch line gap hblank hline _ ih =>
    have hhash : (between stg).step (byte '#') = .more (comment stg) := by rfl
    rw [List.append_assoc, List.cons_append, List.cons_append, readToken_more (step_between_blank hblank),
      readToken_more hhash, List.cons_append, readToken_comment hline]
    exact ih

/-- Behind a quote the first blank is needed, and the rest may be left out. -/
theorem readToken_closed_gap {gap : List Byte} (h : Gap gap) (hne : gap ≠ []) (stg : List Word) (text : List Byte) :
    readToken (closed stg) (gap ++ text) = readToken (between stg) text := by
  rw [← readToken_gap h]
  obtain ⟨ch, rest, rfl, hblank⟩ := h.exists_blank hne
  rw [List.cons_append, readToken_more (step_closed_blank hblank), readToken_more (step_between_blank hblank)]

theorem escape_of_mem {src1 dst : Byte} (h : (src1, dst) ∈ escapes) : escape (byte '\\') src1 = some dst := by
  simp only [escapes, List.mem_cons, Prod.mk.injEq, List.not_mem_nil, or_false] at h
  rcases h with ⟨rfl, rfl⟩ | ⟨rfl, rfl⟩ | ⟨rfl, rfl⟩ | ⟨rfl, rfl⟩ | ⟨rfl, rfl⟩ | ⟨rfl, rfl⟩ <;> rfl

theorem unescape_plain {c : Byte} (h : c ≠ byte '\\') (ch : Byte) (raw : List Byte) :
    unescape ch (c :: raw) = c :: unescape ch raw := by
  cases raw with
  | nil => simp [unescape, escape, h]
  | cons src1 raw => simp [unescape, escape, h]

theorem Escaped.unescape {word : Word} {raw : List Byte} (h : Escaped word raw) (ch : Byte) : unescape ch raw = word := by
  induction h with
  | nil => rfl
  | plain _ hslash _ ih => rw [unescape_plain hslash, ih]
  | escape hmem _ ih => rw [ConfFile.unescape, escape_of_mem hmem, ih]

/-- Between double quotes all is taken as it is. -/
theorem readToken_raw {word : Word} {raw : List Byte} (h : Escaped word raw) (stg : List Word) (acc text : List Byte) :
    readToken (doubleQuoted stg acc) (raw ++ text) = readToken (doubleQuoted stg (acc ++ raw)) text := by
  induction h generalizing acc with
  | nil => rw [List.nil_append, List.append_nil]
  | plain hquote hslash _ ih =>
    rw [List.cons_append, readToken_more (step_doubleQuoted hquote hslash), ih, List.append_assoc, List.singleton_append]
  | escape _ _ ih =>
    rw [List.cons_append, readToken_more step_doubleQuoted_slash, List.cons_append, readToken_more step_slash, ih]
    simp

theorem readToken_inQuotes {word : Word} {raw : List Byte} (h : Escaped word raw) (hnul : 0 ∉ word) (stg : List Word)
    (text : List Byte) :
    readToken (between stg) (inQuotes raw ++ text) = readToken (closed (stg ++ [word])) text := by
  have hopen : (between stg).step (byte '"') = .more (doubleQuoted stg []) := by rfl
  have hword : word.takeWhile (· ≠ 0) = word := by
    rw [List.takeWhile_eq_self_iff]
    intro c hc
    have hne : c ≠ 0 := fun h => hnul (h ▸ hc)
    simpa using hne
  rw [inQuotes, List.cons_append, List.cons_append, readToken_more hopen, List.append_assoc, readToken_raw h,
    List.nil_append, List.singleton_append, readToken_more step_doubleQuoted_end, h.unescape, hword]

theorem readToken_words {words : List Word} {text : List Byte} (h : Words words text) (hnul : ∀ word ∈ words, 0 ∉ word)
    (stg : List Word) (rest : List Byte) :
    readToken (between stg) (text ++ rest) = readToken (closed (stg ++ words)) rest := by
  induction h generalizing stg with
  | one hraw => exact readToken_inQuotes hraw (hnul _ List.mem_cons_self) stg rest
  | more hraw hgap hne _ ih =>
    have hrest := ih fun word hword => hnul word (List.mem_cons_of_mem _ hword)
    rw [List.append_assoc, List.append_assoc, readToken_inQuotes hraw (hnul _ List.mem_cons_self),
      readToken_closed_gap hgap hne, hrest, List.append_assoc, List.singleton_append]

/-- The words of a directive, and the character behind them -/
theorem readToken_directive {gap words gap' : List Byte} (hgap : Gap gap) (hwords : Words stg words) (hgap' : Gap gap')
    (hne : stg ≠ []) (hnul : ∀ word ∈ stg, 0 ∉ word) {code : Code}
    (hch : ch = byte ';' ∧ code = .next ∨ ch = byte '{' ∧ code = .blockStart) (rest : List Byte) :
    readToken {} (gap ++ words ++ gap' ++ ch :: rest) = (code, stg, rest) := by
  have hclosed : (closed stg).step ch = .token code stg := by
    rcases hch with ⟨rfl, rfl⟩ | ⟨rfl, rfl⟩ <;> rfl
  have hbetween : (between stg).step ch = .token code stg := by
    obtain ⟨word, stg, rfl⟩ := List.exists_cons_of_ne_nil hne
    rcases hch with ⟨rfl, rfl⟩ | ⟨rfl, rfl⟩ <;> rfl
  rw [List.append_assoc, List.append_assoc, readToken_gap hgap, readToken_words hwords hnul, List.nil_append]
  by_cases hnil : gap' = []
  · rw [hnil]
    exact readToken_token hclosed
  · rw [readToken_closed_gap hgap' hnil]
    exact readToken_token hbetween

end

/-! ## Trees -/

/-- What stands behind the nodes of a call, and what it leaves -/
inductive Ends : List Byte → List Byte → Prop
  | file : Ends [] []
  | block (rest : List Byte) : Ends (byte '}' :: rest) rest

theorem included_none {parseFile : Word → Option (List Conf)} {file : Word} {stg : List Word}
    (h : stg.head? ≠ some includeName) : included parseFile file stg = some [] := by
  unfold included
  split
  · apply if_neg
    rintro rfl
    exact h rfl
  · rfl

theorem parseBuf_prints {parseFile : Word → Option (List Conf)} {file : Word} {nodes : List Conf} {text : List Byte}
    (hprints : Prints nodes text) (htree : Tree nodes) {tail rest : List Byte} (hends : Ends tail rest) (fuel : ℕ)
    (root : List Conf) (hfuel : (text ++ tail).length < fuel) :
    parseBuf parseFile file fuel root (text ++ tail) = some (root ++ nodes, rest) := by
  induction hprints generalizing tail rest fuel root with
  | nil hgap =>
    obtain ⟨fuel, rfl⟩ := Nat.exists_eq_succ_of_ne_zero (Nat.ne_zero_of_lt hfuel)
    rw [parseBuf, readToken_gap hgap, List.append_nil]
    cases hends with
    | file => rfl
    | block => rfl
  | @directive stg nodes gap words gap' text hgap hwords hgap' _ ih =>
    cases htree with
    | cons hne hnul hinclude _ hnodes =>
      have htext : gap ++ words ++ gap' ++ byte ';' :: text ++ tail =
          gap ++ words ++ gap' ++ byte ';' :: (text ++ tail) := by
        simp
      obtain ⟨fuel, rfl⟩ := Nat.exists_eq_succ_of_ne_zero (Nat.ne_zero_of_lt hfuel)
      rw [htext] at hfuel ⊢
      have hnext := ih hnodes hends fuel (root ++ [.node stg []]) (by simp at hfuel ⊢; omega)
      rw [parseBuf, readToken_directive hgap hwords hgap' hne hnul (.inl ⟨rfl, rfl⟩)]
      simp [included_none hinclude, hnext]
  | @block stg child nodes gap words gap' inner text hgap hwords hgap' _ _ _ ihChild ihNodes =>
    cases htree with
    | cons hne hnul _ hchild hnodes =>
      have htext : gap ++ words ++ gap' ++ byte '{' :: inner ++ byte '}' :: text ++ tail =
          gap ++ words ++ gap' ++ byte '{' :: (inner ++ byte '}' :: (text ++ tail)) := by
        simp
      obtain ⟨fuel, rfl⟩ := Nat.exists_eq_succ_of_ne_zero (Nat.ne_zero_of_lt hfuel)
      rw [htext] at hfuel ⊢
      have hinner := ihChild hchild (.block (text ++ tail)) fuel [] (by simp at hfuel ⊢; omega)
      have hnext := ihNodes hnodes hends fuel (root ++ [.node stg child]) (by simp at hfuel ⊢; omega)
      rw [parseBuf, readToken_directive hgap hwords hgap' hne hnul (.inr ⟨rfl, rfl⟩)]
      simp [hinner, hnext]

/-- Each text of a tree is read back to it, and each tree has one. -/
theorem round_trip {nodes : List Conf} (htree : Tree nodes) (files : Word → Option (List Byte)) (fds : ℕ) (file : Word) :
    Prints nodes (printNodes nodes) ∧ ∀ text, Prints nodes text → parse files fds file text = some (nodes, []) := by
  refine ⟨prints_print htree, fun text hprints => ?_⟩
  have hrun : parseBuf (parseFile files fds) file (text.length + 1) [] (text ++ []) = some ([] ++ nodes, []) := by
    apply parseBuf_prints hprints htree .file
    rw [List.append_nil]
    exact Nat.lt_succ_self _
  rwa [List.append_nil] at hrun

/-- A block with an empty word, a quote, a backslash and a brace in its words, and a directive behind it -/
def sampleTree : List Conf :=
  [.node [[byte 'a'], [byte '"', byte '{']] [.node [[byte 'b'], [], [byte '\\', byte '}']] []], .node [[byte 'c']] []]

theorem sampleTree_round_trip : parse (fun _ => none) 8 [] (printNodes sampleTree) = some (sampleTree, []) := by
  have htree : Tree sampleTree :=
    .cons (by decide) (by decide) (by decide) (.cons (by decide) (by decide) (by decide) .nil .nil)
      (.cons (by decide) (by decide) (by decide) .nil .nil)
  have h := round_trip htree (fun _ => none) 8 []
  exact h.2 _ h.1

end Tefs.Proxy.ConfFile

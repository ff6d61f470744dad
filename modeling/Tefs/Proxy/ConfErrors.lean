import Tefs.Proxy.ConfGrammar

/-! # Malformed configurations

One call of `gvfs_conf_parse_buf` ends at a closing brace, at an error or at the end of the text, and the call around it
does not ask which it was. So an error, a missing brace and a surplus brace only matter to the call they end. And an
opening brace right behind a word is one more character of it.
-/

namespace Tefs.Proxy.ConfFile
set_option autoImplicit false

/-! ## Well-formed texts -/

/-- Directives and blocks; `stops` end a word without quotes, and `closing` is what ends a block. -/
inductive Items (stops : Byte → Prop) (closing : List Byte → Prop) : List Byte → Prop
  | nil : Items stops closing []
  | directive {words items : List Byte} : Phrase stops (byte ';') words → Items stops closing items →
      Items stops closing (words ++ byte ';' :: items)
  | block {words inner last items : List Byte} : Phrase stops (byte '{') words → Items stops closing inner →
      closing last → Items stops closing items → Items stops closing (words ++ byte '{' :: (inner ++ (last ++ items)))

inductive Brace : List Byte → Prop
  | mk {layout : List Byte} : Layout layout → Brace (layout ++ [byte '}'])

/-- All that the reader names as the end of a word -/
abbrev EndsWord (ch : Byte) : Prop := Separates ch ∨ ch = byte '{'

/-- Directives and blocks, each block with its closing brace -/
inductive WellFormed : List Byte → Prop
  | mk {items layout line : List Byte} : Items EndsWord Brace items → Layout layout → LastLine line →
      WellFormed (items ++ (layout ++ line))

/-! ## Errors outside of blocks -/

/-- A closing brace, or an error -/
inductive Closing : List Byte → Prop
  | brace {last : List Byte} : Brace last → Closing last
  | fault {last : List Byte} : Fault Separates last → Closing last

/-- There is an error outside of all blocks, where a block ends at the first brace or error in it, and a brace behind a
word without quotes opens none. -/
inductive ErrorOutside : List Byte → Prop
  | fault {items fault : List Byte} (rest : List Byte) : Items Separates Closing items → Fault Separates fault →
      ErrorOutside (items ++ (fault ++ rest))
  | cut {items cut : List Byte} : Items Separates Closing items → Cut Separates cut → ErrorOutside (items ++ cut)

/-- A closing brace is the first that is not white space. -/
inductive BraceFirst : List Byte → Prop
  | mk {brace : List Byte} (rest : List Byte) : Brace brace → BraceFirst (brace ++ rest)

/-- The call comes to an end, and returns `NULL` for a malformed text. -/
def Reported (files : Word → Option (List Byte)) (fds : ℕ) (file : Word) (text : List Byte) : Prop :=
  ∃ nodes rest, parse files fds file text = some (nodes, rest) ∧ (¬ WellFormed text → nodes = [])

/-! ## What a call reads -/

/-- The codes that end a call -/
def Code.Stops (code : Code) : Prop := code = .blockDone ∨ code = .error ∨ code = .atEnd

/-- A call reads `text` up to a token with `code`, and leaves `rest`. -/
inductive Reads : List Byte → Code → List Byte → Prop
  | stop {text rest : List Byte} {code : Code} {stg : List Word} : readToken {} text = (code, stg, rest) → code.Stops →
      Reads text code rest
  | directive {text rest rest' : List Byte} {code : Code} {stg : List Word} : readToken {} text = (.next, stg, rest) →
      Reads rest code rest' → Reads text code rest'
  | block {text rest rest' rest'' : List Byte} {closing code : Code} {stg : List Word} :
      readToken {} text = (.blockStart, stg, rest) → Reads rest closing rest' → Reads rest' code rest'' →
      Reads text code rest''

section

variable {text rest rest' : List Byte} {code code' : Code}

theorem Reads.stops (h : Reads text code rest) : code.Stops := by
  induction h with
  | stop _ hstops => exact hstops
  | directive _ _ ih => exact ih
  | block _ _ _ _ ih => exact ih

theorem not_stops_next : ¬ Code.next.Stops := by
  simp [Code.Stops]

theorem not_stops_blockStart : ¬ Code.blockStart.Stops := by
  simp [Code.Stops]

theorem Reads.deterministic (h : Reads text code rest) (h' : Reads text code' rest') :
    code = code' ∧ rest = rest' := by
  induction h generalizing code' rest' with
  | stop hread hstops =>
    cases h' with
    | stop hread' _ =>
      cases hread.symm.trans hread'
      exact ⟨rfl, rfl⟩
    | directive hread' _ =>
      cases hread.symm.trans hread'
      exact absurd hstops not_stops_next
    | block hread' _ _ =>
      cases hread.symm.trans hread'
      exact absurd hstops not_stops_blockStart
  | directive hread _ ih =>
    cases h' with
    | stop hread' hstops =>
      cases hread.symm.trans hread'
      exact absurd hstops not_stops_next
    | directive hread' hrest =>
      cases hread.symm.trans hread'
      exact ih hrest
    | block hread' _ _ => cases hread.symm.trans hread'
  | block hread _ _ ihInner ihRest =>
    cases h' with
    | stop hread' hstops =>
      cases hread.symm.trans hread'
      exact absurd hstops not_stops_blockStart
    | directive hread' _ => cases hread.symm.trans hread'
    | block hread' hinner hrest =>
      cases hread.symm.trans hread'
      obtain ⟨-, rfl⟩ := ihInner hinner
      exact ihRest hrest

theorem Reads.of_nil (h : Reads [] code rest) : code = .atEnd ∧ rest = [] := by
  obtain ⟨rfl, rfl⟩ := h.deterministic (.stop readToken_nil (.inr (.inr rfl)))
  exact ⟨rfl, rfl⟩

/-- What ends a call, with the code of its token and what is behind it -/
inductive Ending : Code → List Byte → List Byte → Prop
  | brace {last : List Byte} (rest : List Byte) : Brace last → Ending .blockDone (last ++ rest) rest
  | fault {last : List Byte} (rest : List Byte) : Fault Separates last → Ending .error (last ++ rest) rest
  | cut {last : List Byte} : Cut Separates last → Ending .error last []
  | atEnd {layout line : List Byte} : Layout layout → LastLine line → Ending .atEnd (layout ++ line) []

theorem Lexeme.ending (h : Lexeme code text rest) (hstops : code.Stops) : Ending code text rest := by
  cases h with
  | next => exact absurd hstops not_stops_next
  | blockStart => exact absurd hstops not_stops_blockStart
  | blockDone _ hlayout =>
    rw [List.append_cons]
    exact .brace rest (.mk hlayout)
  | fault _ hfault => exact .fault rest hfault
  | cut hcut => exact .cut hcut
  | atEnd hlayout hline => exact .atEnd hlayout hline

theorem Ending.reads (h : Ending code text rest) : Reads text code rest := by
  have hlexeme : Lexeme code text rest ∧ code.Stops := by
    cases h with
    | brace _ hbrace =>
      cases hbrace with
      | mk hlayout =>
        rw [List.append_assoc]
        exact ⟨.blockDone rest hlayout, .inl rfl⟩
    | fault _ hfault => exact ⟨.fault rest hfault, .inr (.inl rfl)⟩
    | cut hcut => exact ⟨.cut hcut, .inr (.inl rfl)⟩
    | atEnd hlayout hline => exact ⟨.atEnd hlayout hline, .inr (.inr rfl)⟩
  obtain ⟨stg, hread⟩ := lexeme_iff.mp hlexeme.1
  exact .stop hread hlexeme.2

/-- Directives and blocks in front of what ends a call -/
theorem Items.reads {items : List Byte} (h : Items Separates Closing items) (hrest : Reads text code rest) :
    Reads (items ++ text) code rest := by
  induction h generalizing text code rest with
  | nil => exact hrest
  | @directive words items hwords _ ih =>
    obtain ⟨stg, hread⟩ := lexeme_iff.mp (.next (items ++ text) hwords)
    rw [List.append_assoc, List.cons_append]
    exact .directive hread (ih hrest)
  | @block words inner last items hwords _ hlast _ ihInner ih =>
    obtain ⟨stg, hread⟩ := lexeme_iff.mp (.blockStart (inner ++ (last ++ (items ++ text))) hwords)
    have hclosing : ∃ closing, Reads (last ++ (items ++ text)) closing (items ++ text) := by
      cases hlast with
      | brace hbrace => exact ⟨_, (Ending.brace (items ++ text) hbrace).reads⟩
      | fault hfault => exact ⟨_, (Ending.fault (items ++ text) hfault).reads⟩
    obtain ⟨closing, hclosing⟩ := hclosing
    have h := Reads.block hread (ihInner hclosing) (ih hrest)
    simpa only [List.append_assoc, List.cons_append] using h

/-- A call reads directives and blocks up to what ends it, or a block takes the end of the text for it. -/
theorem Reads.items (h : Reads text code rest) : (code = .atEnd ∧ rest = []) ∨
    ∃ items last, text = items ++ last ∧ Items Separates Closing items ∧ Ending code last rest := by
  induction h with
  | stop hread hstops => exact .inr ⟨[], _, rfl, .nil, (lexeme_iff.mpr ⟨_, hread⟩).ending hstops⟩
  | directive hread _ ih =>
    rcases ih with hend | ⟨items, last, rfl, hitems, hlast⟩
    · exact .inl hend
    cases lexeme_iff.mpr ⟨_, hread⟩ with
    | next _ hwords =>
      exact .inr ⟨_, last, by rw [List.append_assoc, List.cons_append], .directive hwords hitems, hlast⟩
  | @block text rest rest' rest'' closing code stg hread _ hrest ihInner ih =>
    -- where the block takes the end of the text, there is nothing left for the call around it
    have hnil : rest' = [] → code = .atEnd ∧ rest'' = [] := by
      rintro rfl
      exact hrest.of_nil
    rcases ihInner with ⟨-, hend⟩ | ⟨inner, last, rfl, hinner, hlast⟩
    · exact .inl (hnil hend)
    have hclosed : ∀ close, Closing close → last = close ++ rest' → (code = .atEnd ∧ rest'' = []) ∨
        ∃ items last, text = items ++ last ∧ Items Separates Closing items ∧ Ending code last rest'' := by
      rintro close hclose rfl
      rcases ih with hend | ⟨items, last, rfl, hitems, hlast⟩
      · exact .inl hend
      cases lexeme_iff.mpr ⟨_, hread⟩ with
      | blockStart _ hwords => exact .inr ⟨_, last, by simp, .block hwords hinner hclose hitems, hlast⟩
    cases hlast with
    | brace _ hbrace => exact hclosed _ (.brace hbrace) rfl
    | fault _ hfault => exact hclosed _ (.fault hfault) rfl
    | cut => exact .inl (hnil rfl)
    | atEnd => exact .inl (hnil rfl)

/-! ## What a call returns -/

/-- A call that ends with an error returns nothing. Any other returns what it has read: nothing if the first token ends
it. -/
structure Returns (root : List Conf) (text : List Byte) (code : Code) (nodes : List Conf) : Prop where
  error : code = .error → nodes = []
  list : code ≠ .error → ∃ more, nodes = root ++ more ∧ (more = [] → (readToken {} text).1 = code)

theorem Returns.first {root : List Conf} (hcode : code ≠ .error) (hread : (readToken {} text).1 = code) :
    Returns root text code root :=
  ⟨fun herror => absurd herror hcode, fun _ => ⟨[], (List.append_nil root).symm, fun _ => hread⟩⟩

/-- With more nodes in front the call returns more than it was given. -/
theorem Returns.cons {root nodes : List Conf} {node : Conf} {included : List Conf}
    (h : Returns (root ++ node :: included) rest code nodes) : Returns root text code nodes := by
  refine ⟨h.error, fun hne => ?_⟩
  obtain ⟨more, rfl, -⟩ := h.list hne
  refine ⟨node :: included ++ more, by rw [List.append_assoc], fun hnil => ?_⟩
  exact absurd hnil (List.cons_ne_nil _ _)

theorem parseBuf_reads {parseFile : Word → Option (List Conf)} {file : Word} {fuel : ℕ} {root nodes : List Conf}
    (h : parseBuf parseFile file fuel root text = some (nodes, rest)) :
    ∃ code, Reads text code rest ∧ Returns root text code nodes := by
  induction fuel generalizing root nodes text rest with
  | zero => cases h
  | succ fuel ih =>
    rw [parseBuf] at h
    generalize hread : readToken {} text = token at h
    obtain ⟨code, stg, text'⟩ := token
    have hfirst : (readToken {} text).1 = code := congrArg Prod.fst hread
    cases code with
    | blockDone =>
      cases h
      exact ⟨.blockDone, .stop hread (.inl rfl), .first (by decide) hfirst⟩
    | atEnd =>
      cases h
      exact ⟨.atEnd, .stop hread (.inr (.inr rfl)), .first (by decide) hfirst⟩
    | error =>
      cases h
      exact ⟨.error, .stop hread (.inr (.inl rfl)), fun _ => rfl, fun hne => absurd rfl hne⟩
    | next =>
      obtain ⟨included, -, h⟩ := Option.bind_eq_some_iff.mp h
      obtain ⟨code, hreads, hreturns⟩ := ih h
      exact ⟨code, .directive hread hreads, hreturns.cons⟩
    | blockStart =>
      obtain ⟨⟨child, text''⟩, hchild, h⟩ := Option.bind_eq_some_iff.mp h
      obtain ⟨closing, hinner, -⟩ := ih hchild
      obtain ⟨code, hreads, hreturns⟩ := ih h
      exact ⟨code, .block hread hinner hreads, hreturns.cons⟩

end

/-! ## Printed texts -/

section

variable {stops : Byte → Prop}

theorem Layout.append {layout layout' : List Byte} (h : Layout layout) (h' : Layout layout') :
    Layout (layout ++ layout') := by
  induction h' with
  | nil =>
    rw [List.append_nil]
    exact h
  | blank _ hblank ih =>
    rw [← List.append_assoc]
    exact ih.blank hblank
  | comment _ hline ih =>
    have h := ih.comment hline
    simpa only [List.append_assoc] using h

/-- A comment in front of the end of a line -/
theorem Layout.comment_front {layout line : List Byte} (h : Layout (byte '\n' :: layout)) (hline : byte '\n' ∉ line) :
    Layout (byte '#' :: line ++ byte '\n' :: layout) := by
  generalize hwhole : byte '\n' :: layout = whole at h
  induction h generalizing layout with
  | nil => cases hwhole
  | @blank whole ch _ hblank ih =>
    cases whole with
    | nil =>
      cases hwhole
      exact Layout.nil.comment hline
    | cons ch' whole =>
      cases hwhole
      have h := (ih rfl).blank hblank
      simpa only [List.append_assoc, List.cons_append] using h
  | @comment whole line' _ hline' ih =>
    cases whole with
    | nil => cases hwhole
    | cons ch' whole =>
      cases hwhole
      have h := (ih rfl).comment hline'
      simpa only [List.append_assoc, List.cons_append] using h

theorem Gap.layout {gap : List Byte} (h : Gap gap) : Layout gap := by
  induction h with
  | nil => exact .nil
  | blank hblank _ ih => exact (Layout.nil.blank hblank).append ih
  | comment hblank hline _ ih => exact (Layout.nil.blank hblank).append (ih.comment_front hline)

/-- Behind the first blank of a gap there is white space and comments. -/
theorem Gap.layout_tail {gap : List Byte} (h : Gap gap) (hne : gap ≠ []) :
    ∃ ch layout, gap = ch :: layout ∧ Blank ch ∧ Layout layout := by
  cases h with
  | nil => exact absurd rfl hne
  | blank hblank hgap => exact ⟨_, _, rfl, hblank, hgap.layout⟩
  | comment hblank hline hgap => exact ⟨_, _, rfl, hblank, hgap.layout.comment_front hline⟩

theorem Chars.append {plain : Byte → Prop} {raw raw' : List Byte} (h : Chars plain raw) (h' : Chars plain raw') :
    Chars plain (raw ++ raw') := by
  induction h' with
  | nil =>
    rw [List.append_nil]
    exact h
  | plain _ hslash hplain ih =>
    rw [← List.append_assoc]
    exact ih.plain hslash hplain
  | escaped ch _ ih =>
    rw [← List.append_assoc, ← List.append_assoc]
    exact ih.escaped ch

theorem Escaped.chars {word : Word} {raw : List Byte} (h : Escaped word raw) : Chars (· ≠ byte '"') raw := by
  induction h with
  | nil => exact .nil
  | plain hquote hslash _ ih => exact (Chars.nil.plain hslash hquote).append ih
  | @escape src1 _ _ _ _ _ ih => exact (Chars.nil.escaped src1).append ih

theorem Escaped.quoted {word : Word} {raw : List Byte} (h : Escaped word raw) : Quoted (inQuotes raw) :=
  .mk (.inl rfl) h.chars

theorem Words.phrase {stg : List Word} {text front gap : List Byte} {n : ℕ} (h : Words stg text)
    (hfront : Leading stops n front) (hgap : Gap gap) (ch : Byte) : Phrase stops ch (front ++ text ++ gap) := by
  induction h generalizing n front with
  | one hraw =>
    by_cases hnil : gap = []
    · rw [hnil, List.append_nil]
      exact .quoted hfront hraw.quoted
    · obtain ⟨ch', layout, rfl, hblank, hlayout⟩ := hgap.layout_tail hnil
      exact .spaced (.word hfront (.inr hraw.quoted) hblank hlayout)
  | more hraw hgap' hne _ ih =>
    obtain ⟨ch', layout, rfl, hblank, hlayout⟩ := hgap'.layout_tail hne
    have h := ih (.word hfront (.inr hraw.quoted) hblank hlayout)
    simpa only [List.append_assoc, List.cons_append] using h

/-- The texts of trees are well formed. -/
theorem Prints.wellFormed {nodes : List Conf} {text : List Byte} (h : Prints nodes text) : WellFormed text := by
  have hitems : ∃ items layout, text = items ++ layout ∧ Items EndsWord Brace items ∧ Layout layout := by
    induction h with
    | nil hgap => exact ⟨[], _, rfl, .nil, hgap.layout⟩
    | @directive stg nodes gap words gap' text hgap hwords hgap' _ ih =>
      obtain ⟨items, layout, rfl, hitems, hlayout⟩ := ih
      refine ⟨gap ++ words ++ gap' ++ byte ';' :: items, layout, by simp, ?_, hlayout⟩
      exact .directive (hwords.phrase (.layout hgap.layout) hgap' _) hitems
    | @block stg child nodes gap words gap' inner text hgap hwords hgap' _ _ _ ihChild ih =>
      obtain ⟨items, layout, rfl, hitems, hlayout⟩ := ih
      obtain ⟨inner, layout', rfl, hinner, hlayout'⟩ := ihChild
      refine ⟨gap ++ words ++ gap' ++ byte '{' :: (inner ++ (layout' ++ [byte '}'] ++ items)), layout, by simp, ?_,
        hlayout⟩
      exact .block (hwords.phrase (.layout hgap.layout) hgap' _) hinner (.mk hlayout') hitems
  obtain ⟨items, layout, rfl, hitems, hlayout⟩ := hitems
  have h := WellFormed.mk hitems hlayout .nil
  rwa [List.append_nil] at h

end

/-! ## Malformed texts -/

theorem ErrorOutside.reads {text : List Byte} (h : ErrorOutside text) : ∃ rest, Reads text .error rest := by
  cases h with
  | fault rest hitems hfault => exact ⟨rest, hitems.reads (Ending.fault rest hfault).reads⟩
  | cut hitems hcut => exact ⟨[], hitems.reads (Ending.cut hcut).reads⟩

theorem Reads.errorOutside {text rest : List Byte} (h : Reads text .error rest) : ErrorOutside text := by
  rcases h.items with ⟨herror, -⟩ | ⟨items, last, rfl, hitems, hlast⟩
  · cases herror
  cases hlast with
  | fault _ hfault => exact .fault rest hitems hfault
  | cut hcut => exact .cut hitems hcut

/-- The first token is a closing brace. -/
theorem braceFirst_iff {text : List Byte} : BraceFirst text ↔ (readToken {} text).1 = .blockDone := by
  constructor
  · rintro ⟨rest, ⟨hlayout⟩⟩
    obtain ⟨stg, hread⟩ := lexeme_iff.mp (.blockDone rest hlayout)
    rw [List.append_assoc, List.singleton_append, hread]
  · intro hcode
    have h := lexeme_iff.mpr ⟨_, Prod.ext hcode rfl⟩
    generalize (readToken {} text).2.2 = rest at h
    cases h with
    | blockDone _ hlayout =>
      rw [List.append_cons]
      exact .mk rest (.mk hlayout)

/-- There is nothing but white space. -/
theorem wellFormed_of_atEnd {text : List Byte} (hcode : (readToken {} text).1 = .atEnd) : WellFormed text := by
  have h := lexeme_iff.mpr ⟨_, Prod.ext hcode rfl⟩
  generalize (readToken {} text).2.2 = rest at h
  cases h with
  | atEnd hlayout hline => exact .mk .nil hlayout hline

/-- A malformed text is reported exactly if there is an error outside of all blocks, or if it begins with a closing
brace. -/
theorem reported_iff (files : Word → Option (List Byte)) (fds : ℕ) (file : Word) (text : List Byte) :
    Reported files fds file text ↔ WellFormed text ∨ ErrorOutside text ∨ BraceFirst text := by
  obtain ⟨nodes, rest, hparse, -⟩ :=
    parseBuf_isSome file (parseFile_isSome files fds) (text.length + 1) [] text (Nat.lt_succ_self _)
  obtain ⟨code, hreads, hreturns⟩ := parseBuf_reads hparse
  constructor
  · rintro ⟨nodes', rest', hparse', hreported⟩
    cases hparse.symm.trans hparse'
    by_cases hwell : WellFormed text
    · exact .inl hwell
    by_cases hcode : code = .error
    · rw [hcode] at hreads
      exact .inr (.inl hreads.errorOutside)
    obtain ⟨more, rfl, hfirst⟩ := hreturns.list hcode
    have hfirst := hfirst (hreported hwell)
    rcases hreads.stops with rfl | rfl | rfl
    · exact .inr (.inr (braceFirst_iff.mpr hfirst))
    · exact absurd rfl hcode
    · exact absurd (wellFormed_of_atEnd hfirst) hwell
  · intro h
    refine ⟨nodes, rest, hparse, fun hmalformed => ?_⟩
    rcases h with hwell | houtside | hbrace
    · exact absurd hwell hmalformed
    · obtain ⟨rest', houtside⟩ := houtside.reads
      exact hreturns.error (hreads.deterministic houtside).1
    · have hstop : readToken {} text = (.blockDone, (readToken {} text).2) := Prod.ext (braceFirst_iff.mp hbrace) rfl
      rw [parseBuf, hstop] at hparse
      cases hparse
      rfl

/-! ## A block needs its closing brace -/

/-- No quotes, comments and backslashes -/
def Simple (text : List Byte) : Prop := ∀ ch ∈ text, ¬ Quote ch ∧ ch ≠ byte '#' ∧ ch ≠ byte '\\'

instance (text : List Byte) : Decidable (Simple text) :=
  inferInstanceAs (Decidable (∀ ch ∈ text, ¬ Quote ch ∧ ch ≠ byte '#' ∧ ch ≠ byte '\\'))

theorem simple_append {text text' : List Byte} : Simple (text ++ text') ↔ Simple text ∧ Simple text' :=
  List.forall_mem_append

theorem simple_cons {ch : Byte} {text : List Byte} :
    Simple (ch :: text) ↔ (¬ Quote ch ∧ ch ≠ byte '#' ∧ ch ≠ byte '\\') ∧ Simple text :=
  List.forall_mem_cons

theorem not_blank_open : ¬ Blank (byte '{') := by decide

theorem Layout.no_open {layout : List Byte} (h : Layout layout) (hsimple : Simple layout) : byte '{' ∉ layout := by
  induction h with
  | nil => exact List.not_mem_nil
  | blank _ hblank ih =>
    rw [List.mem_append, List.mem_singleton, not_or]
    refine ⟨ih (simple_append.mp hsimple).1, ?_⟩
    rintro rfl
    exact not_blank_open hblank
  | comment =>
    have hsharp := (simple_cons.mp (simple_append.mp (simple_append.mp hsimple).1).2).1.2.1
    exact absurd rfl hsharp

theorem Bare.no_open {word : List Byte} (h : Bare EndsWord word) (hsimple : Simple word) : byte '{' ∉ word := by
  obtain ⟨hchars, -⟩ := h
  induction hchars with
  | nil => exact List.not_mem_nil
  | plain _ _ hplain ih =>
    rw [List.mem_append, List.mem_singleton, not_or]
    refine ⟨ih (simple_append.mp hsimple).1, ?_⟩
    rintro rfl
    exact hplain (.inr rfl)
  | escaped =>
    have hslash := (simple_cons.mp (simple_append.mp (simple_append.mp hsimple).1).2).1.2.2
    exact absurd rfl hslash

theorem Quoted.not_simple {word : List Byte} (h : Quoted word) : ¬ Simple word := by
  cases h with
  | mk hquote => exact fun hsimple => (hsimple _ List.mem_cons_self).1 hquote

theorem Leading.no_open {n : ℕ} {words : List Byte} (h : Leading EndsWord n words) (hsimple : Simple words) :
    byte '{' ∉ words := by
  induction h with
  | layout hlayout => exact hlayout.no_open hsimple
  | word _ hword hblank hlayout ih =>
    obtain ⟨hfront, htail⟩ := simple_append.mp hsimple
    obtain ⟨hwords, hsimple⟩ := simple_append.mp hfront
    have hbare := hword.resolve_right fun hquoted => hquoted.not_simple hsimple
    rw [List.mem_append, List.mem_append, List.mem_cons, not_or, not_or, not_or]
    refine ⟨⟨ih hwords, hbare.no_open hsimple⟩, ?_, hlayout.no_open (simple_cons.mp htail).2⟩
    rintro rfl
    exact not_blank_open hblank

theorem Phrase.no_open {ch : Byte} {words : List Byte} (h : Phrase EndsWord ch words) (hsimple : Simple words) :
    byte '{' ∉ words := by
  cases h with
  | spaced hwords => exact hwords.no_open hsimple
  | bare hwords hbare =>
    obtain ⟨hfront, hsimple⟩ := simple_append.mp hsimple
    rw [List.mem_append, not_or]
    exact ⟨hwords.no_open hfront, hbare.no_open hsimple⟩
  | quoted _ hquoted => exact absurd (simple_append.mp hsimple).2 hquoted.not_simple

theorem Items.count_le {items : List Byte} (h : Items EndsWord Brace items) (hsimple : Simple items) :
    items.count (byte '{') ≤ items.count (byte '}') := by
  induction h with
  | nil => exact Nat.le_refl _
  | directive hwords _ ih =>
    obtain ⟨hsimple, hrest⟩ := simple_append.mp hsimple
    have hrest := ih (simple_cons.mp hrest).2
    have hnone := List.count_eq_zero.mpr (hwords.no_open hsimple)
    have hend : byte ';' ≠ byte '{' ∧ byte ';' ≠ byte '}' := by decide
    rw [List.count_append, List.count_append, List.count_cons_of_ne hend.1, List.count_cons_of_ne hend.2]
    omega
  | block hwords _ hlast _ ihInner ih =>
    cases hlast with
    | mk hlayout =>
      obtain ⟨hsimple, hblock⟩ := simple_append.mp hsimple
      obtain ⟨hinner, hblock⟩ := simple_append.mp (simple_cons.mp hblock).2
      obtain ⟨hbrace, hrest⟩ := simple_append.mp hblock
      have hinner := ihInner hinner
      have hrest := ih hrest
      have hwords := List.count_eq_zero.mpr (hwords.no_open hsimple)
      have hlayout := List.count_eq_zero.mpr (hlayout.no_open (simple_append.mp hbrace).1)
      have hne : byte '}' ≠ byte '{' := by decide
      simp only [List.count_append, List.count_cons_self, List.count_cons_of_ne hne, List.count_cons_of_ne hne.symm,
        List.count_nil, hwords, hlayout]
      omega

/-- Each block has its closing brace. -/
theorem WellFormed.count_le {text : List Byte} (h : WellFormed text) (hsimple : Simple text) :
    text.count (byte '{') ≤ text.count (byte '}') := by
  cases h with
  | mk hitems hlayout hline =>
    obtain ⟨hsimple, htail⟩ := simple_append.mp hsimple
    obtain ⟨hsimple', hline'⟩ := simple_append.mp htail
    have hitems := hitems.count_le hsimple
    have hlayout := List.count_eq_zero.mpr (hlayout.no_open hsimple')
    cases hline with
    | nil =>
      simp only [List.count_append, hlayout, List.count_nil]
      omega
    | comment => exact absurd rfl (simple_cons.mp hline').1.2.1

/-- `a { { b; }`, where a brace follows on none of the words -/
def doubleBrace : List Byte := ['a', ' ', '{', ' ', '{', ' ', 'b', ';', ' ', '}'].map byte

/-- The error ends the block, the directive in it is taken for one behind it, and the closing brace ends the text. -/
theorem doubleBrace_accepted : parse (fun _ => none) 8 [] doubleBrace =
      some ([.node [[byte 'a']] [], .node [[byte 'b']] []], []) ∧
    ¬ WellFormed doubleBrace ∧ ¬ Reported (fun _ => none) 8 [] doubleBrace := by
  have hparse : parse (fun _ => none) 8 [] doubleBrace =
    some ([.node [[byte 'a']] [], .node [[byte 'b']] []], []) := by rfl
  have hmalformed : ¬ WellFormed doubleBrace := fun h => absurd (h.count_le (by decide)) (by decide)
  refine ⟨hparse, hmalformed, ?_⟩
  rintro ⟨nodes, rest, hparse', hreported⟩
  cases hparse.symm.trans hparse'
  cases hreported hmalformed

/-- `a { b } {`, where an error ends the block and another stands behind it -/
def lateBrace : List Byte := ['a', ' ', '{', ' ', 'b', ' ', '}', ' ', '{'].map byte

theorem lateBrace_reported : ¬ WellFormed lateBrace ∧ Reported (fun _ => none) 8 [] lateBrace := by
  have hmalformed : ¬ WellFormed lateBrace := fun h => absurd (h.count_le (by decide)) (by decide)
  have hblank : Layout [byte ' '] := .blank .nil (.inl rfl)
  have hword {ch : Byte} (hplain : ¬ Separates ch) (hspecial : ¬ Special ch) (hslash : ch ≠ byte '\\') :
      Bare Separates [ch] := ⟨.plain .nil hslash hplain, _, _, rfl, hspecial⟩
  have ha : Leading Separates 1 [byte 'a', byte ' '] :=
    .word (.layout .nil) (.inl (hword (by decide) (by decide) (by decide))) (.inl rfl) .nil
  have hb : Leading Separates 1 [byte ' ', byte 'b', byte ' '] :=
    .word (.layout hblank) (.inl (hword (by decide) (by decide) (by decide))) (.inl rfl) .nil
  have hitems : Items Separates Closing (['a', ' ', '{', ' ', 'b', ' ', '}'].map byte) :=
    .block (.spaced ha) .nil (Closing.fault (.brace hb)) .nil
  have houtside : ErrorOutside lateBrace := ErrorOutside.fault [] hitems (.terminator hblank (.inr rfl))
  exact ⟨hmalformed, (reported_iff _ 8 [] lateBrace).mpr (.inr (.inl houtside))⟩

end Tefs.Proxy.ConfFile

import Tefs.DataServer.Queries
import Tefs.Lib.CString
import Tefs.Lib.Search

/-! # The names of the blocks

Source: `itoa64`, `atoi64` and `combine_itoa` of `diskmanager/common/tbsys.cpp`, `get_logic_block_ids` of
`diskmanager/src/blockfile_manager.cpp` and `query_block_status` of `diskmanager/src/data_management.cpp`.

The text of `Tefs.DataServer.combineItoa` is made here as the code makes it, in arrays of 22, 11 and 32 bytes. A write
behind the end of one gives `none`.
-/

namespace Tefs.DataServer.BlockNames
open CString Search
set_option autoImplicit false

abbrev ascii (c : Char) : Byte := BitVec.ofNat 8 c.toNat

/-! ## Numbers as text -/

/-- `index`, with its NUL -/
def index : List Byte := "0123456789ABCDEFGHIJKLMNOPQRSTUVWXYZ".toList.map ascii ++ [0]

/-- The `do` loop of `itoa64`, from `str[i]` on: `i` and `str` at its end. The first number is the room behind `str[i]`. -/
def itoaLoop (radix : ℕ) : ℕ → ℕ → ℕ → List Byte → Option (ℕ × List Byte)
  | 0, _, _, _ => none
  | room + 1, i, unum, str => do
    let c ← index[unum % radix]?
    let str ← store str i c
    let unum := unum / radix
    if unum = 0 then return (i + 1, str) else itoaLoop radix room (i + 1) unum str

def itoa64 (num : BitVec 64) (str : List Byte) (radix : ℕ) : Option (List Byte) := do
  let (i, str) ← itoaLoop radix str.length 0 num.toNat str
  let str ← store str i 0
  reverseLoop i ((i - 1) / 2 + 1) 0 str

/-- A turn of the loop of `atoi64` -/
def digitAdded (value : BitVec 64) (c : Byte) : Option (BitVec 64) :=
  if c < ascii '0' ∨ ascii '9' < c then none else some (value * 10 + (c - ascii '0').setWidth 64)

/-- The `value` of the `n` characters of `line`, and `none` for the result -1. -/
def atoi64 (line : List Byte) : Option (BitVec 64) := if line = [] then none else line.foldlM digitAdded 0

def combineItoa (key : Key) (str : List Byte) (radix : ℕ) : Option (List Byte) := do
  let str1 ← itoa64 key.1 (List.replicate 22 0) radix
  let str2 ← itoa64 (key.2.setWidth 64) (List.replicate 11 0) radix
  let n ← strlen str1
  let str1 ← store str1 n (ascii ':')
  let str ← strcpy str str1
  strcat str str2

/-! ## What is reported -/

/-- The `std::string` that the callers of `combine_itoa` make of their `char str[32]` -/
def blockName (str : List Byte) (key : Key) : Option (List Byte) := do
  let str ← combineItoa key str 10
  cString str

/-- `logic_2_physic_blocks` -/
abbrev BlockReport := List Byte → Option (List ℕ)

/-- `insert` of a `std::map` leaves an entry as it is. -/
def BlockReport.insert (report : BlockReport) (name : List Byte) (ids : List ℕ) : BlockReport :=
  if (report name).isSome then report else Function.update report name (some ids)

/-- A turn of the loop over the blocks -/
def reportBlock (str : Key → List Byte) (report : BlockReport) : BlockPtr → Option BlockReport
  | none => some report
  | some b => do
    let name ← blockName (str b.block.key) b.block.key
    return report.insert name b.block.physicalBlockList

def lbPairs : BitVec 32 := 2

/-- `str` is what the arrays of 32 bytes hold before. -/
def queryBlockStatus (s : Store) (str : Key → List Byte) (queryType : BitVec 32) (report : BlockReport) :
    Option (List (List Byte) × BlockReport) := do
  let blockIds ← s.logicBlocks.keys.mapM fun key => blockName (str key) key
  if queryType &&& lbPairs ≠ 0 then
    let report ← (s.getAllLogicBlock .main).1.foldlM (reportBlock str) report
    return (blockIds, report)
  else return (blockIds, report)

/-- The maps of blocks that come about. A block that changes, which its ids never do, is one that is inserted again. -/
inductive Made : LogicBlockMap → Prop
  | empty : Made .empty
  | insert {m : LogicBlockMap} (block : BlockPtr) : Made m → Made (insertLogicBlockMap m block)
  | delete {m : LogicBlockMap} (fileid : BitVec 64) (chunkid : BitVec 32) : Made m → Made (deleteLogicBlockMap m fileid chunkid)

/-- A number is read back from its text. Every name fits its array, and no two blocks have the same. The names of the blocks
are reported, and each block under its name. -/
structure Faithful (s : Store) (str : Key → List Byte) (queryType : BitVec 32) : Prop where
  roundTrip : ∀ (num : BitVec 64) (buf : List Byte), 20 < buf.length →
    ∃ buf' text, itoa64 num buf 10 = some buf' ∧ cString buf' = some text ∧ atoi64 text = some num
  fits : ∀ key (buf : List Byte), buf.length = 32 → ∃ name, blockName buf key = some name
  distinct : ∀ key key' (buf buf' : List Byte), buf.length = 32 → buf'.length = 32 →
    blockName buf key = blockName buf' key' → key = key'
  reported : ∃ ids report, queryBlockStatus s str queryType (fun _ => none) = some (ids, report) ∧
    ids.map some = s.logicBlocks.keys.map (fun key => blockName (str key) key) ∧
    (queryType &&& lbPairs ≠ 0 → ∀ file ∈ s.logicBlocks.entries, ∀ chunk ∈ file.2.entries, ∀ b, chunk.2 = some b →
      ∃ name, blockName (str (file.1, chunk.1)) (file.1, chunk.1) = some name ∧
        report name = some b.block.physicalBlockList)

/-! ## Decimal numbers -/

def decimal (n : ℕ) : List Byte := (Nat.toDigits 10 n).map ascii

theorem ascii_digit {d : ℕ} (hd : d < 10) : ascii (Nat.digitChar d) = BitVec.ofNat 8 (48 + d) := by
  rw [ascii, Nat.toNat_digitChar_of_lt_ten hd]

theorem index_digit {d : ℕ} (hd : d < 10) : index[d]? = some (ascii (Nat.digitChar d)) := by
  revert d
  decide

theorem decimal_small {n : ℕ} (h : n < 10) : decimal n = [ascii (Nat.digitChar n)] := by
  rw [decimal, Nat.toDigits_of_lt_base h]
  rfl

theorem decimal_large {n : ℕ} (h : 10 ≤ n) : decimal n = decimal (n / 10) ++ [ascii (Nat.digitChar (n % 10))] := by
  rw [decimal, Nat.toDigits_of_base_le (by omega) h, List.map_append]
  rfl

theorem decimal_ne_nil (n : ℕ) : decimal n ≠ [] := by
  rw [decimal, ne_eq, List.map_eq_nil_iff]
  exact Nat.toDigits_ne_nil

theorem decimal_length_le {n k : ℕ} (hk : 0 < k) (h : n < 10 ^ k) : (decimal n).length ≤ k := by
  rw [decimal, List.length_map]
  exact (Nat.length_toDigits_le_iff (by omega) hk).mpr h

/-- Every character is a digit. -/
theorem mem_decimal {n : ℕ} {c : Byte} (h : c ∈ decimal n) : ∃ d < 10, c = BitVec.ofNat 8 (48 + d) := by
  induction n using Nat.strong_induction_on with
  | _ n ih =>
    by_cases hn : n < 10
    · rw [decimal_small hn, List.mem_singleton] at h
      exact ⟨n, hn, h.trans (ascii_digit hn)⟩
    · rw [decimal_large (by omega), List.mem_append, List.mem_singleton] at h
      rcases h with hfront | hlast
      · exact ih (n / 10) (by omega) hfront
      · exact ⟨n % 10, by omega, hlast.trans (ascii_digit (by omega))⟩

theorem notMem_decimal {c : Byte} (hc : ∀ d < 10, c ≠ BitVec.ofNat 8 (48 + d)) (n : ℕ) : c ∉ decimal n := by
  intro h
  obtain ⟨d, hd, hdigit⟩ := mem_decimal h
  exact hc d hd hdigit

theorem zero_notMem_decimal (n : ℕ) : 0 ∉ decimal n := notMem_decimal (by decide) n

theorem colon_notMem_decimal (n : ℕ) : ascii ':' ∉ decimal n := notMem_decimal (by decide) n

/-! ## Numbers and their text -/

theorem itoaLoop_eq {unum : ℕ} (pre suf : List Byte) (hroom : (decimal unum).length ≤ suf.length) :
    itoaLoop 10 suf.length pre.length unum (pre ++ suf) =
      some (pre.length + (decimal unum).length, pre ++ ((decimal unum).reverse ++ suf.drop (decimal unum).length)) := by
  induction suf generalizing pre unum with
  | nil =>
    have hpos := List.length_pos_of_ne_nil (decimal_ne_nil unum)
    rw [List.length_nil] at hroom
    omega
  | cons c suf ih =>
    rw [List.length_cons, itoaLoop, index_digit (Nat.mod_lt unum (by omega))]
    dsimp only [Option.bind_eq_bind, Option.bind_some]
    rw [store_append]
    dsimp only [Option.bind_some]
    by_cases hsmall : unum < 10
    · have hlast : unum / 10 = 0 := Nat.div_eq_of_lt hsmall
      rw [if_pos hlast, decimal_small hsmall, Nat.mod_eq_of_lt hsmall]
      rfl
    · have hmore : ¬ unum / 10 = 0 := by omega
      have hlarge := decimal_large (n := unum) (by omega)
      have hlen : (decimal unum).length = (decimal (unum / 10)).length + 1 := by
        rw [hlarge, List.length_append, List.length_singleton]
      have hrest : (decimal (unum / 10)).length ≤ suf.length := by
        rw [hlen, List.length_cons] at hroom
        omega
      have hnext := ih (pre ++ [ascii (Nat.digitChar (unum % 10))]) hrest
      rw [if_neg hmore]
      rw [List.length_append, List.length_singleton, List.append_assoc, List.singleton_append] at hnext
      rw [hnext, hlen, hlarge, List.reverse_append, List.reverse_singleton, List.drop_succ_cons]
      simp only [List.append_assoc, List.cons_append, Nat.add_assoc, Nat.add_comm 1]

/-- The text and its NUL are written, and no more. -/
theorem itoa64_eq {num : BitVec 64} {str : List Byte} (hfits : (decimal num.toNat).length < str.length) :
    itoa64 num str 10 = some (decimal num.toNat ++ 0 :: str.drop ((decimal num.toNat).length + 1)) := by
  have hpos := List.length_pos_of_ne_nil (decimal_ne_nil num.toNat)
  have hloop := itoaLoop_eq [] str hfits.le
  have hstored := store_append (decimal num.toNat).reverse (str.drop ((decimal num.toNat).length + 1))
    (str[(decimal num.toNat).length]) 0
  have hturns : ((decimal num.toNat).length - 1) / 2 + 1 = ((decimal num.toNat).reverse.length + 1) / 2 := by
    rw [List.length_reverse]
    omega
  have hreversed := reverseLoop_eq (n := (decimal num.toNat).length) (decimal num.toNat).reverse []
    (0 :: str.drop ((decimal num.toNat).length + 1)) (by simp)
  rw [List.length_reverse] at hstored
  rw [List.length_nil, Nat.zero_add, List.nil_append, List.nil_append, List.drop_eq_getElem_cons hfits] at hloop
  rw [List.length_nil, List.nil_append, List.nil_append, List.reverse_reverse] at hreversed
  rw [itoa64, hloop]
  dsimp only [Option.bind_eq_bind, Option.bind_some]
  rw [hstored]
  dsimp only [Option.bind_some]
  rw [hturns, hreversed]

theorem digitAdded_digit {d : ℕ} (hd : d < 10) (value : BitVec 64) :
    digitAdded value (BitVec.ofNat 8 (48 + d)) = some (value * 10 + BitVec.ofNat 64 d) := by
  have hdigit : ∀ d < 10, ¬ (BitVec.ofNat 8 (48 + d) < ascii '0' ∨ ascii '9' < BitVec.ofNat 8 (48 + d)) ∧
      (BitVec.ofNat 8 (48 + d) - ascii '0').setWidth 64 = BitVec.ofNat 64 d := by decide
  rw [digitAdded, if_neg (hdigit d hd).1, (hdigit d hd).2]

theorem foldlM_decimal (n : ℕ) : (decimal n).foldlM digitAdded 0 = some (BitVec.ofNat 64 n) := by
  induction n using Nat.strong_induction_on with
  | _ n ih =>
    by_cases hn : n < 10
    · rw [decimal_small hn, ascii_digit hn, List.foldlM_cons, digitAdded_digit hn]
      simp
    · have hrest := ih (n / 10) (by omega)
      have hmod : n % 10 < 10 := Nat.mod_lt n (by omega)
      have hvalue : BitVec.ofNat 64 (n / 10) * 10 + BitVec.ofNat 64 (n % 10) = BitVec.ofNat 64 n := by
        have hten : (10 : BitVec 64).toNat = 10 := rfl
        apply BitVec.eq_of_toNat_eq
        simp only [BitVec.toNat_add, BitVec.toNat_mul, BitVec.toNat_ofNat, hten]
        omega
      rw [decimal_large (by omega), List.foldlM_append, hrest, ascii_digit hmod]
      change (digitAdded (BitVec.ofNat 64 (n / 10)) _).bind _ = _
      rw [digitAdded_digit hmod, hvalue]
      rfl

theorem atoi64_decimal (num : BitVec 64) : atoi64 (decimal num.toNat) = some num := by
  rw [atoi64, if_neg (decimal_ne_nil _), foldlM_decimal, BitVec.ofNat_toNat, BitVec.setWidth_eq]

/-! ## Names -/

def nameOf (key : Key) : List Byte := decimal key.1.toNat ++ ascii ':' :: decimal key.2.toNat

/-- The characters are those of `Tefs.DataServer.combineItoa`. -/
theorem nameOf_eq (key : Key) : nameOf key = (DataServer.combineItoa key).map ascii := by
  rw [nameOf, DataServer.combineItoa, List.map_append]
  rfl

theorem zero_notMem_nameOf (key : Key) : 0 ∉ nameOf key := by
  rw [nameOf, List.mem_append, List.mem_cons]
  rintro (hfront | hcolon | hback)
  · exact zero_notMem_decimal _ hfront
  · revert hcolon
    decide
  · exact zero_notMem_decimal _ hback

theorem nameOf_injective : Function.Injective nameOf := by
  intro key key' h
  have hfront : decimal key.1.toNat = decimal key'.1.toNat := by
    have htake := congrArg (List.takeWhile (· ≠ ascii ':')) h
    rwa [nameOf, nameOf, takeWhile_append_mark (colon_notMem_decimal _), takeWhile_append_mark (colon_notMem_decimal _)] at htake
  have hback : decimal key.2.toNat = decimal key'.2.toNat := by
    rw [nameOf, nameOf, hfront] at h
    exact List.tail_eq_of_cons_eq (List.append_cancel_left h)
  have hfile : key.1 = key'.1 := by
    have hvalue := atoi64_decimal key.1
    rw [hfront, atoi64_decimal] at hvalue
    exact (Option.some.inj hvalue).symm
  have hchunk : key.2 = key'.2 := by
    have hvalue := foldlM_decimal key.2.toNat
    rw [hback, foldlM_decimal] at hvalue
    have hvalue := congrArg BitVec.toNat (Option.some.inj hvalue)
    rw [BitVec.toNat_ofNat, BitVec.toNat_ofNat] at hvalue
    bv_omega
  exact Prod.ext hfile hchunk

/-- The longest name is as long as the arrays are. -/
theorem combineItoa_eq (key : Key) {str : List Byte} (hlen : 32 ≤ str.length) :
    ∃ rest, combineItoa key str 10 = some (nameOf key ++ 0 :: rest) := by
  have hfile : (decimal key.1.toNat).length ≤ 20 := decimal_length_le (by omega) (by omega)
  have hchunk : (decimal key.2.toNat).length ≤ 10 := decimal_length_le (by omega) (by omega)
  have hwide : (key.2.setWidth 64).toNat = key.2.toNat := by
    rw [BitVec.toNat_setWidth]
    omega
  have hstr1 : itoa64 key.1 (List.replicate 22 0) 10 =
      some (decimal key.1.toNat ++ 0 :: 0 :: List.replicate (20 - (decimal key.1.toNat).length) 0) := by
    have hroom : 22 - ((decimal key.1.toNat).length + 1) = 20 - (decimal key.1.toNat).length + 1 := by omega
    rw [itoa64_eq (by rw [List.length_replicate]; omega), List.drop_replicate, hroom, List.replicate_succ]
  have hstr2 : itoa64 (key.2.setWidth 64) (List.replicate 11 0) 10 =
      some (decimal key.2.toNat ++ 0 :: (List.replicate 11 0).drop ((decimal key.2.toNat).length + 1)) := by
    rw [itoa64_eq (by rw [hwide, List.length_replicate]; omega), hwide]
  have hcolon : (0 : Byte) ∉ decimal key.1.toNat ++ [ascii ':'] := by
    rw [List.mem_append, List.mem_singleton]
    rintro (hfront | hmark)
    · exact zero_notMem_decimal _ hfront
    · revert hmark
      decide
  have hfits : (decimal key.1.toNat ++ [ascii ':']).length < str.length := by
    rw [List.length_append, List.length_singleton]
    omega
  have hcopied := strcpy_text hcolon (List.replicate (20 - (decimal key.1.toNat).length) 0) hfits
  have hjoined := strcat_text hcolon (zero_notMem_decimal key.2.toNat)
    (str.drop ((decimal key.1.toNat ++ [ascii ':']).length + 1))
    ((List.replicate 11 0).drop ((decimal key.2.toNat).length + 1)) (by
      rw [List.length_drop, List.length_append, List.length_singleton]
      omega)
  have hname : decimal key.1.toNat ++ [ascii ':'] ++ decimal key.2.toNat = nameOf key := by
    rw [nameOf, List.append_assoc, List.singleton_append]
  rw [hname] at hjoined
  refine ⟨_, Eq.trans ?_ hjoined⟩
  rw [combineItoa, hstr1, hstr2]
  dsimp only [Option.bind_eq_bind, Option.bind_some]
  rw [strlen_text (zero_notMem_decimal _)]
  dsimp only [Option.bind_some]
  rw [store_append]
  dsimp only [Option.bind_some]
  rw [List.append_assoc, List.singleton_append] at hcopied
  rw [hcopied]
  rfl

theorem blockName_eq (key : Key) {str : List Byte} (hlen : str.length = 32) : blockName str key = some (nameOf key) := by
  obtain ⟨rest, hcombined⟩ := combineItoa_eq key hlen.ge
  rw [blockName, hcombined]
  exact cString_text (zero_notMem_nameOf key) rest

/-! ## The report -/

theorem insert_nameOf (report : BlockReport) (key key' : Key) (ids : List ℕ) :
    report.insert (nameOf key) ids (nameOf key') =
      (report (nameOf key')).or (if key = key' then some ids else none) := by
  rw [BlockReport.insert]
  by_cases hkey : key = key'
  · subst hkey
    cases hold : report (nameOf key) with
    | none => simp
    | some old => simp [hold]
  · have hname : nameOf key' ≠ nameOf key := fun heq => hkey (nameOf_injective heq).symm
    rw [if_neg hkey, Option.or_none]
    split
    · rfl
    · exact Function.update_of_ne hname _ _

section

variable {str : Key → List Byte} (hstr : ∀ key, (str key).length = 32)

include hstr

/-- Of several blocks with the same ids, the first is reported. -/
theorem foldlM_reportBlock (blocks : List BlockPtr) (report : BlockReport) :
    ∃ report', blocks.foldlM (reportBlock str) report = some report' ∧ ∀ key, report' (nameOf key) =
      (report (nameOf key)).or
        (((blocks.filterMap id).find? (·.block.key = key)).map (·.block.physicalBlockList)) := by
  induction blocks generalizing report with
  | nil => exact ⟨report, rfl, fun key => (Option.or_none).symm⟩
  | cons block blocks ih =>
    cases block with
    | none => exact ih report
    | some b =>
      have hturn : reportBlock str report (some b) =
          some (report.insert (nameOf b.block.key) b.block.physicalBlockList) := by
        rw [reportBlock, blockName_eq _ (hstr _)]
        rfl
      obtain ⟨report', hrun, hvalue⟩ := ih (report.insert (nameOf b.block.key) b.block.physicalBlockList)
      refine ⟨report', ?_, fun key => ?_⟩
      · rw [List.foldlM_cons, hturn]
        exact hrun
      · rw [hvalue, insert_nameOf, Option.or_assoc]
        by_cases hkey : b.block.key = key
        · simp [hkey]
        · simp [hkey]

theorem mapM_blockName (keys : List Key) : keys.mapM (fun key => blockName (str key) key) = some (keys.map nameOf) := by
  have hnames : (fun key => blockName (str key) key) = fun key => pure (nameOf key) :=
    funext fun key => blockName_eq key (hstr key)
  rw [hnames, List.mapM_pure]
  rfl

end

theorem eq_of_key {κ ν : Type} [LT κ] (hirrefl : ∀ k : κ, ¬ k < k) (m : StdMap κ ν) {a b : κ × ν} (ha : a ∈ m.entries)
    (hb : b ∈ m.entries) (hkey : a.1 = b.1) : a = b := by
  have hdistinct : m.entries.Pairwise fun a b => a.1 ≠ b.1 := by
    refine m.sorted.imp ?_
    intro a b hlt heq
    rw [heq] at hlt
    exact hirrefl b.1 hlt
  have hnodup : (m.entries.map Prod.fst).Nodup := List.pairwise_map.mpr hdistinct
  exact List.inj_on_of_nodup_map hnodup ha hb hkey

theorem mem_blocks {m : LogicBlockMap} {b : StampedBlock} :
    b ∈ m.blocks.filterMap id ↔ ∃ file ∈ m.entries, ∃ chunk ∈ file.2.entries, chunk.2 = some b := by
  rw [List.mem_filterMap]
  constructor
  · rintro ⟨block, hblock, hb⟩
    obtain ⟨chunks, hchunks, hblock⟩ := List.mem_flatMap.mp hblock
    obtain ⟨file, hfile, rfl⟩ := List.mem_map.mp hchunks
    obtain ⟨chunk, hchunk, rfl⟩ := List.mem_map.mp hblock
    exact ⟨file, hfile, chunk, hchunk, hb⟩
  · rintro ⟨file, hfile, chunk, hchunk, hb⟩
    have hchunks : file.2 ∈ m.values := List.mem_map.mpr ⟨file, hfile, rfl⟩
    have hblock : some b ∈ file.2.values := List.mem_map.mpr ⟨chunk, hchunk, hb⟩
    exact ⟨some b, List.mem_flatMap.mpr ⟨file.2, hchunks, hblock⟩, rfl⟩

/-- A block is in the map under its own ids. -/
def Keyed (m : LogicBlockMap) : Prop :=
  ∀ file ∈ m.entries, ∀ chunk ∈ file.2.entries, ∀ b, chunk.2 = some b → b.block.key = (file.1, chunk.1)

theorem Keyed.insert {m : LogicBlockMap} (h : Keyed m) (block : BlockPtr) : Keyed (insertLogicBlockMap m block) := by
  cases block with
  | none => exact h
  | some new =>
    intro file hfile chunk hchunk b hb
    rcases StdMap.mem_of_mem_assign hfile with rfl | hold
    · rcases StdMap.mem_of_mem_assign hchunk with rfl | hchunk
      · cases hb
        rfl
      · cases hfound : m.find new.block.fileid with
        | none =>
          rw [hfound] at hchunk
          cases hchunk
        | some chunks =>
          rw [hfound] at hchunk
          exact h _ (StdMap.mem_of_find hfound) chunk hchunk b hb
    · exact h file hold chunk hchunk b hb

theorem Keyed.delete {m : LogicBlockMap} (h : Keyed m) (fileid : BitVec 64) (chunkid : BitVec 32) :
    Keyed (deleteLogicBlockMap m fileid chunkid) := by
  rw [deleteLogicBlockMap]
  cases hfound : m.find fileid with
  | none => exact h
  | some chunks =>
    dsimp only
    split
    · exact h
    · split
      · exact fun file hfile => h file (StdMap.mem_of_mem_erase hfile)
      · intro file hfile chunk hchunk
        rcases StdMap.mem_of_mem_assign hfile with rfl | hold
        · exact h _ (StdMap.mem_of_find hfound) chunk (StdMap.mem_of_mem_erase hchunk)
        · exact h file hold chunk hchunk

theorem Made.keyed {m : LogicBlockMap} (h : Made m) : Keyed m := by
  induction h with
  | empty => exact fun file hfile => absurd hfile List.not_mem_nil
  | insert block _ ih => exact ih.insert block
  | delete fileid chunkid _ ih => exact ih.delete fileid chunkid

/-- The blocks of a map are found by their keys. -/
theorem Keyed.find?_eq {m : LogicBlockMap} (h : Keyed m) {file : BitVec 64 × StdMap (BitVec 32) BlockPtr}
    (hfile : file ∈ m.entries) {chunk : BitVec 32 × BlockPtr} (hchunk : chunk ∈ file.2.entries) {b : StampedBlock}
    (hb : chunk.2 = some b) : (m.blocks.filterMap id).find? (·.block.key = (file.1, chunk.1)) = some b := by
  have hsome : ((m.blocks.filterMap id).find? (·.block.key = (file.1, chunk.1))).isSome := by
    rw [List.find?_isSome]
    exact ⟨b, mem_blocks.mpr ⟨file, hfile, chunk, hchunk, hb⟩, by simpa using h file hfile chunk hchunk b hb⟩
  obtain ⟨b', hfound⟩ := Option.isSome_iff_exists.mp hsome
  obtain ⟨file', hfile', chunk', hchunk', hb'⟩ := mem_blocks.mp (List.mem_of_find?_eq_some hfound)
  have hkey : b'.block.key = (file.1, chunk.1) := by simpa using List.find?_some hfound
  obtain ⟨hfiles, hchunks⟩ := Prod.ext_iff.mp ((h file' hfile' chunk' hchunk' b' hb').symm.trans hkey)
  obtain rfl := eq_of_key (fun k => BitVec.lt_irrefl k) m hfile' hfile hfiles
  obtain rfl := eq_of_key (fun k => BitVec.lt_irrefl k) file'.2 hchunk' hchunk hchunks
  rw [hfound, ← hb', hb]

/-- Any blocks, any contents of the arrays before, and any query -/
theorem block_names_faithful {s : Store} (hmade : Made s.logicBlocks) {str : Key → List Byte}
    (hstr : ∀ key, (str key).length = 32) (queryType : BitVec 32) : Faithful s str queryType where
  roundTrip num buf hlen := by
    have hdigits : (decimal num.toNat).length ≤ 20 := decimal_length_le (by omega) (by omega)
    exact ⟨_, _, itoa64_eq (by omega), cString_text (zero_notMem_decimal _) _, atoi64_decimal num⟩
  fits key buf hlen := ⟨_, blockName_eq key hlen⟩
  distinct key key' buf buf' hlen hlen' h := by
    rw [blockName_eq key hlen, blockName_eq key' hlen'] at h
    exact nameOf_injective (Option.some.inj h)
  reported := by
    have hids : (s.logicBlocks.keys.map nameOf).map some = s.logicBlocks.keys.map fun key => blockName (str key) key := by
      rw [List.map_map]
      exact List.map_congr_left fun key _ => (blockName_eq key (hstr key)).symm
    rw [queryBlockStatus, mapM_blockName hstr]
    dsimp only [Option.bind_eq_bind, Option.bind_some]
    by_cases hpairs : queryType &&& lbPairs ≠ 0
    · obtain ⟨report, hrun, hvalue⟩ := foldlM_reportBlock hstr s.logicBlocks.blocks fun _ => none
      refine ⟨s.logicBlocks.keys.map nameOf, report, ?_, hids, fun _ file hfile chunk hchunk b hb => ?_⟩
      · rw [if_pos hpairs]
        change (s.logicBlocks.blocks.foldlM (reportBlock str) fun _ => none).bind _ = _
        rw [hrun]
        rfl
      · refine ⟨_, blockName_eq _ (hstr _), ?_⟩
        rw [hvalue, hmade.keyed.find?_eq hfile hchunk hb]
        rfl
    · exact ⟨s.logicBlocks.keys.map nameOf, fun _ => none, if_neg hpairs, hids, fun h => absurd h hpairs⟩

/-- Four blocks of three files, of which one is deleted -/
def blocksLeft : LogicBlockMap :=
  let block (key : Key) (ids : List ℕ) : BlockPtr := some ⟨{ LogicBlock.new key with physicalBlockList := ids }, 0⟩
  let blocks := insertLogicBlockMap (insertLogicBlockMap .empty (block (7, 1) [3])) (block (7, 0) [1, 2])
  let blocks := insertLogicBlockMap (insertLogicBlockMap blocks (block (0xFFFFFFFFFFFFFFFF, 0xFFFFFFFF) [4])) (block (9, 5) [6])
  deleteLogicBlockMap blocks 7 1

theorem blocksLeft_made : Made blocksLeft := by
  rw [blocksLeft]
  exact .delete 7 1 (.insert _ (.insert _ (.insert _ (.insert _ .empty))))

theorem blocksLeft_faithful :
    Faithful { oneMainBlock with logicBlocks := blocksLeft } (fun _ => List.replicate 32 0xFF) lbPairs ∧
      blocksLeft.keys = [(7, 0), (9, 5), (0xFFFFFFFFFFFFFFFF, 0xFFFFFFFF)] := by
  constructor
  · have hmade : Made ({ oneMainBlock with logicBlocks := blocksLeft } : Store).logicBlocks := blocksLeft_made
    exact block_names_faithful hmade (fun _ => rfl) lbPairs
  · decide +kernel

end Tefs.DataServer.BlockNames

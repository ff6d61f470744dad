import Mathlib.Data.List.Forall2
import Tefs.Message.ProxyAgree

/-! # The names of the files

Source: `gfs_hextostr` of `nameservice/core/gfs_tools.c` and its calls in `nameservice/busi/gfs_busi_upload.c`,
`gfs_busi_download.c`, `gfs_busi_getfsize.c` and `gfs_busi_delete_file.c`; `gvfs_hextoi` of
`gvfsproxy/src/core/gvfs_string.c`.

The tables of the name server know a file by the text of its hash. A client may spell that text with upper-case letters,
and what the proxy makes of it is spelled out again by the name server.
-/

namespace Tefs.Message
open Wire
set_option autoImplicit false

/-! ## The text of a hash -/

/-- `hex_str`, the digits from 0 to f -/
def hexStr : List (BitVec 8) := [48, 49, 50, 51, 52, 53, 54, 55, 56, 57, 97, 98, 99, 100, 101, 102]

/-- What `gfs_hextostr` writes for `hlen` bytes -/
def hextostr (hex : List (BitVec 8)) (hlen : ℕ) : List (BitVec 8) :=
  (hex.take hlen).flatMap fun b => [hexStr.getD (b.toNat / 16) 0, hexStr.getD (b.toNat % 16) 0]

/-- `hash` of the handlers, without the NUL behind it -/
def fileName (hash : List (BitVec 8)) : List (BitVec 8) := hextostr hash 16

/-- A letter may be upper-cased. -/
def Recase (c c' : BitVec 8) : Prop := c' = c ∨ 97 ≤ c ∧ c ≤ 122 ∧ c' = c - 32

/-- The names that the name server looks for in the four requests -/
def uploadName (mem : ℤ → BitVec 8) : Option (List (BitVec 8)) := (uploadParse mem).map fun r => fileName r.hash

def downloadName (mem : ℤ → BitVec 8) : Option (List (BitVec 8)) := (downloadParse mem).map fun r => fileName r.hash

def getfsizeName (mem : ℤ → BitVec 8) : Option (List (BitVec 8)) := (getfsizeParse mem).map fun r => fileName r.hash

def deleteFileName (mem : ℤ → BitVec 8) : Option (List (BitVec 8)) := (deleteFileParse mem).map fun r => fileName r.hash

/-- Whatever a client asks of the proxy about the file of that text, the name server looks for `name`. -/
structure LookedUp (text name : List (BitVec 8)) : Prop where
  upload : ∀ junk sid fileSize blockNumber blockIndex,
    (nsUploadRequest sid (fileHash junk text) fileSize blockNumber blockIndex).Delivers 52 fun mem => uploadName mem = some name
  download : ∀ junk sid blockIndex,
    (nsDownloadRequest sid (fileHash junk text) blockIndex).Delivers 40 fun mem => downloadName mem = some name
  query : ∀ junk sid, (nsQueryRequest sid (fileHash junk text)).Delivers 36 fun mem => getfsizeName mem = some name
  delete : ∀ junk sid, (nsDeleteRequest sid (fileHash junk text)).Delivers 36 fun mem => deleteFileName mem = some name

/-- The text of a hash, in any case, is read as the hash, and the file is looked for under the text. -/
structure Survives (hash : List (BitVec 8)) : Prop where
  decoded : ∀ text, List.Forall₂ Recase (fileName hash) text → hextoi 16 text = hash
  lookedUp : ∀ text, List.Forall₂ Recase (fileName hash) text → LookedUp text (fileName hash)

/-! ## Digits -/

theorem hexValue_recase {d : ℕ} (hd : d < 16) {c : BitVec 8} (h : Recase (hexStr.getD d 0) c) :
    hexValue c = some (BitVec.ofNat 8 d) := by
  have hlower : ∀ d < 16, hexValue (hexStr.getD d 0) = some (BitVec.ofNat 8 d) := by decide
  have hupper : ∀ d < 16, 97 ≤ hexStr.getD d 0 → hexValue (hexStr.getD d 0 - 32) = some (BitVec.ofNat 8 d) := by decide
  rcases h with rfl | ⟨hletter, -, rfl⟩
  · exact hlower d hd
  · exact hupper d hd hletter

theorem byte_of_digits (b : BitVec 8) : b = BitVec.ofNat 8 (b.toNat / 16) * 16 + BitVec.ofNat 8 (b.toNat % 16) := by
  bv_omega

theorem hextostr_cons (b : BitVec 8) (hash : List (BitVec 8)) (n : ℕ) : hextostr (b :: hash) (n + 1) =
    hexStr.getD (b.toNat / 16) 0 :: hexStr.getD (b.toNat % 16) 0 :: hextostr hash n := rfl

theorem spells_of_recased {hash text : List (BitVec 8)} (h : List.Forall₂ Recase (hextostr hash hash.length) text) :
    Spells text hash := by
  induction hash generalizing text with
  | nil =>
    cases h
    trivial
  | cons b hash ih =>
    rw [List.length_cons, hextostr_cons] at h
    obtain ⟨c, rest, hc, hrest, rfl⟩ := List.forall₂_cons_left_iff.mp h
    obtain ⟨d, text, hd, htext, rfl⟩ := List.forall₂_cons_left_iff.mp hrest
    have hhigh := hexValue_recase (by omega) hc
    have hlow := hexValue_recase (by omega) hd
    exact ⟨⟨_, _, hhigh, hlow, byte_of_digits b⟩, ih htext⟩

/-! ## The way to the name server -/

section

variable {hash text : List (BitVec 8)} (hhash : hash.length = 16) (htext : List.Forall₂ Recase (fileName hash) text)

include hhash htext

theorem spells_of_fileName : Spells text hash := by
  rw [fileName, ← hhash] at htext
  exact spells_of_recased htext

theorem hextoi_fileName : hextoi 16 text = hash := by
  have hne : hash ≠ [] := by
    rintro rfl
    cases hhash
  exact hextoi_of_spells (spells_of_fileName hhash htext) hne (by omega) (by decide)

theorem lookedUp_fileName : LookedUp text (fileName hash) := by
  let hashText : HashText := ⟨hash, text, hhash, spells_of_fileName hhash htext⟩
  refine ⟨fun junk sid fileSize blockNumber blockIndex => ?_, fun junk sid blockIndex => ?_, fun junk sid => ?_,
    fun junk sid => ?_⟩
  · refine (upload_agrees sid hashText fileSize blockNumber blockIndex junk).mono ?_
    rintro mem ⟨r, hparse, -, hr, -⟩
    rw [uploadName, hparse, Option.map_some, hr]
  · refine (download_agrees sid hashText blockIndex junk).mono ?_
    rintro mem ⟨r, hparse, -, hr, -⟩
    rw [downloadName, hparse, Option.map_some, hr]
  · refine (file_delivers 0x0a sid hashText junk).mono ?_
    rintro mem ⟨r, hparse, -, hr, -⟩
    rw [getfsizeName, getfsizeParse, hparse, Option.map_some, hr]
  · refine (file_delivers 0x04 sid hashText junk).mono ?_
    rintro mem ⟨r, hparse, -, hr, -⟩
    rw [deleteFileName, deleteFileParse, hparse, Option.map_some, hr]

end

/-- Files with different hashes have different names. -/
theorem hash_survives {hash hash' : List (BitVec 8)} (hhash : hash.length = 16) (hhash' : hash'.length = 16) :
    Survives hash ∧ (hash ≠ hash' → fileName hash ≠ fileName hash') := by
  have hsame : ∀ h : List (BitVec 8), List.Forall₂ Recase (fileName h) (fileName h) := fun h =>
    List.forall₂_same.mpr fun c _ => .inl rfl
  refine ⟨⟨fun text => hextoi_fileName hhash, fun text => lookedUp_fileName hhash⟩, fun hne heq => hne ?_⟩
  calc
    hash = hextoi 16 (fileName hash) := (hextoi_fileName hhash (hsame hash)).symm
    _ = hextoi 16 (fileName hash') := by rw [heq]
    _ = hash' := hextoi_fileName hhash' (hsame hash')

def hashEnding (last : BitVec 8) : List (BitVec 8) := List.replicate 15 0xD4 ++ [last]

/-- Two hashes that differ in the last digit -/
theorem last_digit_survives : Survives (hashEnding 0x0F) ∧
    (hashEnding 0x0F ≠ hashEnding 0x0E → fileName (hashEnding 0x0F) ≠ fileName (hashEnding 0x0E)) :=
  hash_survives rfl rfl

end Tefs.Message

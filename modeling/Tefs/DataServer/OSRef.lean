import Mathlib.Data.BitVec
import Mathlib.Data.List.Nodup
import Mathlib.Logic.Function.Basic
import Tefs.Lib.Runs

/-! # The reference tables of the data server

Source: `CommonUtilitiesLib/OSRef.cpp` and `OSRef.h`, and the hash table of `OSHashTable.h`.

A reference is known by its address. The table keeps a chain of references for each index of its hash table, the last
one added first; a reference has a string it is found by, and a count of those who use what it stands for. The table's
mutex makes each call one step, and `UnRegister` waits outside of it.
-/

namespace Tefs.DataServer.OSRefs
open Runs
set_option autoImplicit false

/-! ## The functions -/

abbrev Bytes := List (BitVec 8)

structure OSRef where
  fObjectP : ℕ
  fString : Bytes
  fHashValue : BitVec 32
  fRefCount : BitVec 32
  deriving DecidableEq, Repr

/-- `OSRefTableUtils::HashString`: the length times the sum of five of the bytes -/
def hashString (inString : Bytes) : BitVec 32 :=
  if inString = [] then 0
  else
    let theData := fun i => (inString.getD i 0).toNat
    let quarterLen := inString.length / 4
    BitVec.ofNat 32 (inString.length * (theData 0 + theData quarterLen + theData (quarterLen * 2) +
      theData (quarterLen * 3) + theData (inString.length - 1)))

structure RefTable where
  ref : ℕ → OSRef
  fSize : ℕ
  fHashTable : ℕ → List ℕ

def kDefaultTableSize : ℕ := 1193

namespace RefTable

def fMask (s : RefTable) : ℕ := if (s.fSize - 1) &&& s.fSize ≠ 0 then 0 else s.fSize - 1

def computeIndex (hashKey : BitVec 32) (s : RefTable) : ℕ :=
  if s.fMask ≠ 0 then hashKey.toNat &&& s.fMask else hashKey.toNat % s.fSize

def indexOf (entry : ℕ) (s : RefTable) : ℕ := s.computeIndex (s.ref entry).fHashValue

/-- `OSHashTable::Add` -/
def add (entry : ℕ) (s : RefTable) : RefTable :=
  { s with fHashTable := Function.update s.fHashTable (s.indexOf entry) (entry :: s.fHashTable (s.indexOf entry)) }

/-- `OSHashTable::Remove`, which may be called for what is not there -/
def removeEntry (entry : ℕ) (s : RefTable) : RefTable :=
  { s with fHashTable := Function.update s.fHashTable (s.indexOf entry) ((s.fHashTable (s.indexOf entry)).erase entry) }

/-- `OSHashTable::Map` -/
def map (key : Bytes) (s : RefTable) : Option ℕ :=
  (s.fHashTable (s.computeIndex (hashString key))).find? fun elem => (s.ref elem).fString = key

def setRef (r : ℕ) (f : OSRef → OSRef) (s : RefTable) : RefTable :=
  { s with ref := Function.update s.ref r (f (s.ref r)) }

/-- `OSRef::Set` -/
def set (r : ℕ) (inString : Bytes) (inObjectP : ℕ) (s : RefTable) : RefTable :=
  s.setRef r fun R => ⟨inObjectP, inString, hashString inString, R.fRefCount⟩

/-- `false` is `EPERM`. -/
def register (inRef : ℕ) (s : RefTable) : Bool × RefTable :=
  if (s.ref inRef).fString = [] then (false, s)
  else if (s.map (s.ref inRef).fString).isSome then (false, s)
  else (true, s.add inRef)

def resolve (inUniqueID : Bytes) (s : RefTable) : Option ℕ × RefTable :=
  match s.map inUniqueID with
  | some r => (some r, s.setRef r fun R => { R with fRefCount := R.fRefCount + 1 })
  | none => (none, s)

def registerOrResolve (inRef : ℕ) (s : RefTable) : Option ℕ × RefTable :=
  match s.resolve (s.ref inRef).fString with
  | (some r, s') => (some r, s')
  | (none, s') => (none, s'.add inRef)

def release (r : ℕ) (s : RefTable) : RefTable := s.setRef r fun R => { R with fRefCount := R.fRefCount - 1 }

/-- `none`: the caller waits. -/
def unRegister (r refCount : ℕ) (s : RefTable) : Option RefTable :=
  if refCount < (s.ref r).fRefCount.toNat then none else some (s.removeEntry r)

def tryUnRegister (r refCount : ℕ) (s : RefTable) : Bool × RefTable :=
  match s.unRegister r refCount with
  | some s' => (true, s')
  | none => (false, s)

def swap (newRef : ℕ) (s : RefTable) : RefTable :=
  match s.map (s.ref newRef).fString with
  | some oldRef => (s.removeEntry oldRef).add newRef
  | none => s

/-- `OSRefTable(tableSize)`, and references as `OSRef()` makes them, which leaves the hash value as it is -/
def fresh (tableSize : ℕ) (garbage : ℕ → BitVec 32) : RefTable :=
  ⟨fun r => ⟨0, [], garbage r, 0⟩, tableSize, fun _ => []⟩

end RefTable

/-! ## What a table holds -/

namespace RefTable

variable {s : RefTable} {r r' : ℕ} {key : Bytes}

def InTable (r : ℕ) (s : RefTable) : Prop := ∃ i, r ∈ s.fHashTable i

/-- Whether the hash value is that of the string, as `Set` leaves it -/
def IsSet (r : ℕ) (s : RefTable) : Prop := (s.ref r).fHashValue = hashString (s.ref r).fString

instance (r : ℕ) (s : RefTable) : Decidable (s.IsSet r) := inferInstanceAs (Decidable (_ = _))

/-- A reference is in the chain of its hash value only, and found there by a string that no other one has. -/
structure Sound (s : RefTable) : Prop where
  pos : 0 < s.fSize
  index : ∀ i r, r ∈ s.fHashTable i → s.indexOf r = i
  nodup : ∀ i, (s.fHashTable i).Nodup
  isSet : ∀ r, s.InTable r → s.IsSet r
  unique : ∀ r r', s.InTable r → s.InTable r' → (s.ref r).fString = (s.ref r').fString → r = r'

/-- Every look-up is inside of the array. -/
theorem computeIndex_lt (hpos : 0 < s.fSize) (hashKey : BitVec 32) : s.computeIndex hashKey < s.fSize := by
  rw [computeIndex]
  split
  · have hmask : s.fMask ≤ s.fSize - 1 := by
      rw [fMask]
      split <;> omega
    have hand := @Nat.and_le_right hashKey.toNat s.fMask
    omega
  · exact Nat.mod_lt _ hpos

theorem Sound.inTable_iff (h : s.Sound) : s.InTable r ↔ r ∈ s.fHashTable (s.indexOf r) := by
  constructor
  · rintro ⟨i, hi⟩
    rw [h.index i r hi]
    exact hi
  · intro hmem
    exact ⟨_, hmem⟩

theorem Sound.map_eq_some_iff (h : s.Sound) : s.map key = some r ↔ s.InTable r ∧ (s.ref r).fString = key := by
  have hfound : ∀ r, s.map key = some r → s.InTable r ∧ (s.ref r).fString = key := by
    intro r hmap
    have hkey : decide ((s.ref r).fString = key) = true :=
      List.find?_some (p := fun elem => decide ((s.ref elem).fString = key)) hmap
    exact ⟨⟨_, List.mem_of_find?_eq_some hmap⟩, of_decide_eq_true hkey⟩
  refine ⟨hfound r, fun ⟨hin, hkey⟩ => ?_⟩
  have hindex : s.computeIndex (hashString key) = s.indexOf r := by
    rw [indexOf, h.isSet r hin, hkey]
  have hsome : (s.map key).isSome := by
    rw [map, List.find?_isSome]
    exact ⟨r, hindex ▸ h.inTable_iff.mp hin, decide_eq_true hkey⟩
  obtain ⟨r', hr'⟩ := Option.isSome_iff_exists.mp hsome
  obtain ⟨hin', hkey'⟩ := hfound r' hr'
  rw [hr', h.unique r' r hin' hin (hkey'.trans hkey.symm)]

theorem Sound.map_eq_none_iff (h : s.Sound) :
    s.map key = none ↔ ∀ r, s.InTable r → (s.ref r).fString ≠ key := by
  rw [Option.eq_none_iff_forall_ne_some]
  exact forall_congr' fun r => by rw [ne_eq, h.map_eq_some_iff, not_and]

/-! ### The chains -/

theorem fHashTable_add (i : ℕ) :
    (s.add r).fHashTable i = if i = s.indexOf r then r :: s.fHashTable i else s.fHashTable i := by
  by_cases hi : i = s.indexOf r
  · rw [if_pos hi, hi]
    exact Function.update_self ..
  · rw [if_neg hi]
    exact Function.update_of_ne hi ..

theorem inTable_add : (s.add r).InTable r' ↔ r' = r ∨ s.InTable r' := by
  constructor
  · rintro ⟨i, hi⟩
    rw [fHashTable_add] at hi
    split at hi
    · exact (List.mem_cons.mp hi).imp id fun hi => ⟨i, hi⟩
    · exact .inr ⟨i, hi⟩
  · rintro (rfl | ⟨i, hi⟩)
    · exact ⟨s.indexOf r', by rw [fHashTable_add, if_pos rfl]; exact List.mem_cons_self⟩
    · refine ⟨i, ?_⟩
      rw [fHashTable_add]
      split
      · exact List.mem_cons_of_mem _ hi
      · exact hi

theorem Sound.add (h : s.Sound) (hset : s.IsSet r) (hkey : s.map (s.ref r).fString = none) : (s.add r).Sound := by
  have hother := h.map_eq_none_iff.mp hkey
  refine ⟨h.pos, fun i r' hr' => ?_, fun i => ?_, fun r' hr' => ?_, fun r₁ r₂ h₁ h₂ heq => ?_⟩
  · show s.indexOf r' = i
    rw [fHashTable_add] at hr'
    split at hr'
    · next hi =>
      rcases List.mem_cons.mp hr' with rfl | hr'
      · exact hi.symm
      · exact h.index i r' hr'
    · exact h.index i r' hr'
  · rw [fHashTable_add]
    split
    · exact List.nodup_cons.mpr ⟨fun hmem => hother r ⟨i, hmem⟩ rfl, h.nodup i⟩
    · exact h.nodup i
  · rcases inTable_add.mp hr' with rfl | hr'
    · exact hset
    · exact h.isSet r' hr'
  · obtain h₁ | h₁ := inTable_add.mp h₁ <;> obtain h₂ | h₂ := inTable_add.mp h₂
    · exact h₁.trans h₂.symm
    · exact absurd heq.symm (h₁ ▸ hother r₂ h₂)
    · exact absurd heq (h₂ ▸ hother r₁ h₁)
    · exact h.unique r₁ r₂ h₁ h₂ heq

theorem fHashTable_removeEntry (i : ℕ) :
    (s.removeEntry r).fHashTable i = if i = s.indexOf r then (s.fHashTable i).erase r else s.fHashTable i := by
  by_cases hi : i = s.indexOf r
  · rw [if_pos hi, hi]
    exact Function.update_self ..
  · rw [if_neg hi]
    exact Function.update_of_ne hi ..

theorem Sound.inTable_removeEntry (h : s.Sound) : (s.removeEntry r).InTable r' ↔ r' ≠ r ∧ s.InTable r' := by
  have hmem : ∀ i, r' ∈ (s.removeEntry r).fHashTable i ↔ r' ≠ r ∧ r' ∈ s.fHashTable i := by
    intro i
    rw [fHashTable_removeEntry]
    split
    · exact (h.nodup i).mem_erase_iff
    · next hi =>
      refine ⟨fun hin => ⟨?_, hin⟩, And.right⟩
      rintro rfl
      exact hi (h.index i r' hin).symm
  constructor
  · rintro ⟨i, hi⟩
    exact ⟨((hmem i).mp hi).1, i, ((hmem i).mp hi).2⟩
  · rintro ⟨hne, i, hi⟩
    exact ⟨i, (hmem i).mpr ⟨hne, hi⟩⟩

theorem Sound.removeEntry (h : s.Sound) (r : ℕ) : (s.removeEntry r).Sound := by
  have hsub : ∀ i, ((s.removeEntry r).fHashTable i).Sublist (s.fHashTable i) := by
    intro i
    rw [fHashTable_removeEntry]
    split
    · exact List.erase_sublist
    · exact List.Sublist.refl _
  refine ⟨h.pos, fun i r' hr' => h.index i r' ((hsub i).subset hr'), fun i => (h.nodup i).sublist (hsub i),
    fun r' hr' => ?_, fun r₁ r₂ h₁ h₂ => ?_⟩
  · exact h.isSet r' (h.inTable_removeEntry.mp hr').2
  · exact h.unique r₁ r₂ (h.inTable_removeEntry.mp h₁).2 (h.inTable_removeEntry.mp h₂).2

theorem ref_setRef (f : OSRef → OSRef) (r' : ℕ) :
    (s.setRef r f).ref r' = if r' = r then f (s.ref r) else s.ref r' :=
  Function.update_apply ..

/-- A change of a reference that its place in the table does not depend on -/
theorem Sound.setRef (h : s.Sound) {f : OSRef → OSRef} (hf : s.InTable r →
    (f (s.ref r)).fHashValue = (s.ref r).fHashValue ∧ (f (s.ref r)).fString = (s.ref r).fString) :
    (s.setRef r f).Sound := by
  have hfields : ∀ r', s.InTable r' → ((s.setRef r f).ref r').fHashValue = (s.ref r').fHashValue ∧
      ((s.setRef r f).ref r').fString = (s.ref r').fString := by
    intro r' hr'
    rw [ref_setRef]
    split
    · next heq => exact heq ▸ hf (heq ▸ hr')
    · exact ⟨rfl, rfl⟩
  refine ⟨h.pos, fun i r' hr' => ?_, h.nodup, fun r' hr' => ?_, fun r₁ r₂ h₁ h₂ heq => ?_⟩
  · rw [indexOf, (hfields r' ⟨i, hr'⟩).1]
    exact h.index i r' hr'
  · rw [IsSet, (hfields r' hr').1, (hfields r' hr').2]
    exact h.isSet r' hr'
  · rw [(hfields r₁ h₁).2, (hfields r₂ h₂).2] at heq
    exact h.unique r₁ r₂ h₁ h₂ heq

end RefTable

/-! ## What the table is for -/

/-- Names for references, and how many use each of them -/
@[ext]
structure Names where
  name : ℕ → Bytes
  object : ℕ → ℕ
  held : Bytes → Option ℕ
  uses : ℕ → ℕ

namespace Names

def rename (r : ℕ) (key : Bytes) (inObjectP : ℕ) (D : Names) : Names :=
  { D with name := Function.update D.name r key, object := Function.update D.object r inObjectP }

def hold (key : Bytes) (o : Option ℕ) (D : Names) : Names := { D with held := Function.update D.held key o }

def use (r : ℕ) (n : ℕ) (D : Names) : Names := { D with uses := Function.update D.uses r n }

/-- Takes `r` away from its name, if that is its own. -/
def drop (r : ℕ) (D : Names) : Names := if D.held (D.name r) = some r then D.hold (D.name r) none else D

def none : Names := ⟨fun _ => [], fun _ => 0, fun _ => .none, fun _ => 0⟩

end Names

inductive Op
  | set (r : ℕ) (inString : Bytes) (inObjectP : ℕ)
  | register (inRef : ℕ)
  | registerOrResolve (inRef : ℕ)
  | resolve (inUniqueID : Bytes)
  | release (inRef : ℕ)
  | unRegister (inRef refCount : ℕ)
  | tryUnRegister (inRef refCount : ℕ)
  | swap (newRef : ℕ)
  deriving DecidableEq, Repr

inductive Answer
  | done
  | waits
  | flag (ok : Bool)
  | found (r : Option ℕ)
  deriving DecidableEq, Repr

/-- A call that waits has changed nothing; it is made anew when the reference is released. -/
def apply : Op → RefTable → Answer × RefTable
  | .set r inString inObjectP, s => (.done, s.set r inString inObjectP)
  | .register r, s => (.flag (s.register r).1, (s.register r).2)
  | .registerOrResolve r, s => (.found (s.registerOrResolve r).1, (s.registerOrResolve r).2)
  | .resolve key, s => (.found (s.resolve key).1, (s.resolve key).2)
  | .release r, s => (.done, s.release r)
  | .unRegister r refCount, s =>
    match s.unRegister r refCount with
    | some s' => (.done, s')
    | none => (.waits, s)
  | .tryUnRegister r refCount, s => (.flag (s.tryUnRegister r refCount).1, (s.tryUnRegister r refCount).2)
  | .swap r, s => (.done, s.swap r)

def nameApply : Op → Names → Answer × Names
  | .set r key inObjectP, D => (.done, D.rename r key inObjectP)
  | .register r, D =>
    if D.name r = [] ∨ (D.held (D.name r)).isSome then (.flag false, D)
    else (.flag true, D.hold (D.name r) (some r))
  | .registerOrResolve r, D =>
    match D.held (D.name r) with
    | some r' => (.found (some r'), D.use r' (D.uses r' + 1))
    | none => (.found none, D.hold (D.name r) (some r))
  | .resolve key, D =>
    match D.held key with
    | some r => (.found (some r), D.use r (D.uses r + 1))
    | none => (.found none, D)
  | .release r, D => (.done, D.use r (D.uses r - 1))
  | .unRegister r n, D => if n < D.uses r then (.waits, D) else (.done, D.drop r)
  | .tryUnRegister r n, D => if n < D.uses r then (.flag false, D) else (.flag true, D.drop r)
  | .swap r, D => (.done, if (D.held (D.name r)).isSome then D.hold (D.name r) (some r) else D)

/-- What the callers see to: a reference is set before it is put in, and not while it is there, and is released by who has
resolved it; `2 ^ 32` never use it at a time. -/
def Allowed (s : RefTable) : Op → Prop
  | .set r _ _ => ¬s.InTable r
  | .register r => s.IsSet r
  | .registerOrResolve r =>
    s.IsSet r ∧ ∀ r', s.map (s.ref r).fString = some r' → (s.ref r').fRefCount.toNat + 1 < 2 ^ 32
  | .resolve key => ∀ r, s.map key = some r → (s.ref r).fRefCount.toNat + 1 < 2 ^ 32
  | .release r => 0 < (s.ref r).fRefCount.toNat
  | .swap r => s.IsSet r
  | _ => True

/-! ## The calls, as calls on names -/

namespace RefTable

variable {s : RefTable} {r : ℕ} {key : Bytes}

def names (s : RefTable) : Names :=
  ⟨fun r => (s.ref r).fString, fun r => (s.ref r).fObjectP, fun key => s.map key, fun r => (s.ref r).fRefCount.toNat⟩

theorem Sound.names_add (h : s.Sound) (hset : s.IsSet r) (hkey : s.map (s.ref r).fString = none) :
    (s.add r).names = s.names.hold (s.ref r).fString (some r) := by
  have hadd := h.add hset hkey
  ext1
  · rfl
  · rfl
  · funext key
    apply Option.ext
    intro r'
    show (s.add r).map key = some r' ↔ Function.update (fun key => s.map key) _ _ key = some r'
    rw [hadd.map_eq_some_iff, inTable_add]
    show (r' = r ∨ _) ∧ (s.ref r').fString = key ↔ _
    by_cases hk : key = (s.ref r).fString
    · rw [hk, Function.update_self]
      have hother := h.map_eq_none_iff.mp hkey r'
      grind
    · rw [Function.update_of_ne hk, h.map_eq_some_iff]
      grind
  · rfl

theorem Sound.names_removeEntry (h : s.Sound) (r : ℕ) : (s.removeEntry r).names = s.names.drop r := by
  have hremove := h.removeEntry r
  have hmap : ∀ key r', (s.removeEntry r).map key = some r' ↔ r' ≠ r ∧ s.map key = some r' := by
    intro key r'
    rw [hremove.map_eq_some_iff, h.inTable_removeEntry, h.map_eq_some_iff, and_assoc]
    rfl
  rw [Names.drop]
  split
  · next hheld =>
    ext1
    · rfl
    · rfl
    · funext key
      apply Option.ext
      intro r'
      show (s.removeEntry r).map key = some r' ↔
        Function.update (fun key => s.map key) (s.ref r).fString none key = some r'
      rw [hmap]
      have hheld' : s.map (s.ref r).fString = some r := hheld
      by_cases hk : key = (s.ref r).fString
      · rw [hk, Function.update_self, hheld']
        grind
      · rw [Function.update_of_ne hk]
        refine and_iff_right_of_imp fun hr' heq => hk ?_
        exact (h.map_eq_some_iff.mp (heq ▸ hr')).2.symm
    · rfl
  · next hheld =>
    ext1
    · rfl
    · rfl
    · funext key
      apply Option.ext
      intro r'
      show (s.removeEntry r).map key = some r' ↔ s.map key = some r'
      rw [hmap]
      refine and_iff_right_of_imp fun hr' heq => hheld ?_
      obtain ⟨hin, hk⟩ := h.map_eq_some_iff.mp hr'
      rw [heq] at hin hk
      exact h.map_eq_some_iff.mpr ⟨hin, rfl⟩
    · rfl

theorem Sound.map_setRef (h : s.Sound) {f : OSRef → OSRef} (hf : s.InTable r →
    (f (s.ref r)).fHashValue = (s.ref r).fHashValue ∧ (f (s.ref r)).fString = (s.ref r).fString) (key : Bytes) :
    (s.setRef r f).map key = s.map key := by
  apply Option.ext
  intro r'
  rw [(h.setRef hf).map_eq_some_iff, h.map_eq_some_iff]
  refine and_congr_right fun hin => ?_
  rw [ref_setRef]
  split
  · next heq => rw [(hf (heq ▸ hin)).2, heq]
  · rfl

/-- A new count, which no chain depends on -/
def setCount (r : ℕ) (n : BitVec 32) (s : RefTable) : RefTable := s.setRef r fun R => { R with fRefCount := n }

theorem Sound.setCount (h : s.Sound) (r : ℕ) (n : BitVec 32) :
    (s.setCount r n).Sound ∧ (s.setCount r n).names = s.names.use r n.toNat := by
  refine ⟨h.setRef fun _ => ⟨rfl, rfl⟩, ?_⟩
  have hother : ∀ {α : Type} (g : OSRef → α), (∀ R, g { R with fRefCount := n } = g R) →
      (fun r' => g ((s.setCount r n).ref r')) = fun r' => g (s.ref r') := by
    intro α g hg
    funext r'
    rw [RefTable.setCount, ref_setRef]
    split
    · next heq => rw [hg, heq]
    · rfl
  ext1
  · exact hother OSRef.fString fun _ => rfl
  · exact hother OSRef.fObjectP fun _ => rfl
  · funext key
    exact h.map_setRef (fun _ => ⟨rfl, rfl⟩) key
  · funext r'
    show ((s.setCount r n).ref r').fRefCount.toNat = Function.update (fun r' => (s.ref r').fRefCount.toNat) r n.toNat r'
    rw [RefTable.setCount, ref_setRef, Function.update_apply]
    split <;> rfl

theorem Sound.set (h : s.Sound) (hout : ¬s.InTable r) (inString : Bytes) (inObjectP : ℕ) :
    (s.set r inString inObjectP).Sound ∧ (s.set r inString inObjectP).names = s.names.rename r inString inObjectP := by
  refine ⟨h.setRef fun hin => absurd hin hout, ?_⟩
  have hfield : ∀ {α : Type} (g : OSRef → α), (fun r' => g ((s.set r inString inObjectP).ref r')) =
      Function.update (fun r' => g (s.ref r')) r (g ((s.set r inString inObjectP).ref r)) := by
    intro α g
    funext r'
    by_cases heq : r' = r
    · rw [heq, Function.update_self]
    · rw [Function.update_of_ne heq, RefTable.set, ref_setRef, if_neg heq]
  have hself : (s.set r inString inObjectP).ref r = ⟨inObjectP, inString, hashString inString, (s.ref r).fRefCount⟩ := by
    rw [RefTable.set, ref_setRef, if_pos rfl]
  ext1
  · refine (hfield OSRef.fString).trans ?_
    rw [hself]
    rfl
  · refine (hfield OSRef.fObjectP).trans ?_
    rw [hself]
    rfl
  · funext key
    exact h.map_setRef (fun hin => absurd hin hout) key
  · refine (hfield fun R => R.fRefCount.toNat).trans ?_
    rw [hself]
    exact Function.update_eq_self ..

theorem Sound.resolve (h : s.Sound) (hcount : ∀ r, s.map key = some r → (s.ref r).fRefCount.toNat + 1 < 2 ^ 32) :
    (s.resolve key).2.Sound ∧
      (Answer.found (s.resolve key).1, (s.resolve key).2.names) = nameApply (.resolve key) s.names := by
  cases hmap : s.map key with
  | none =>
    have hheld : s.names.held key = none := hmap
    simp only [RefTable.resolve, nameApply, hmap, hheld]
    exact ⟨h, trivial⟩
  | some r =>
    have hheld : s.names.held key = some r := hmap
    obtain ⟨hsound, hnames⟩ := h.setCount r ((s.ref r).fRefCount + 1)
    have htoNat : ((s.ref r).fRefCount + 1).toNat = (s.ref r).fRefCount.toNat + 1 := by
      have := hcount r hmap
      bv_omega
    rw [htoNat] at hnames
    simp only [RefTable.resolve, nameApply, hmap, hheld]
    exact ⟨hsound, congrArg (Prod.mk _) hnames⟩

theorem Sound.register (h : s.Sound) (hset : s.IsSet r) :
    (s.register r).2.Sound ∧
      (Answer.flag (s.register r).1, (s.register r).2.names) = nameApply (.register r) s.names := by
  have hname : s.names.name r = (s.ref r).fString := rfl
  simp only [RefTable.register, nameApply, hname]
  by_cases hnil : (s.ref r).fString = []
  · rw [if_pos hnil, if_pos (.inl hnil)]
    exact ⟨h, rfl⟩
  · cases hmap : s.map (s.ref r).fString with
    | some r' =>
      have hheld : s.names.held (s.ref r).fString = some r' := hmap
      rw [if_neg hnil, hheld, if_pos (show (some r').isSome = true from rfl), if_pos (.inr rfl)]
      exact ⟨h, rfl⟩
    | none =>
      have hheld : s.names.held (s.ref r).fString = none := hmap
      rw [if_neg hnil, hheld, if_neg (by simp), if_neg (by simpa using hnil)]
      exact ⟨h.add hset hmap, congrArg (Prod.mk _) (h.names_add hset hmap)⟩

theorem Sound.registerOrResolve (h : s.Sound) (hset : s.IsSet r)
    (hcount : ∀ r', s.map (s.ref r).fString = some r' → (s.ref r').fRefCount.toNat + 1 < 2 ^ 32) :
    (s.registerOrResolve r).2.Sound ∧
      (Answer.found (s.registerOrResolve r).1, (s.registerOrResolve r).2.names) =
        nameApply (.registerOrResolve r) s.names := by
  have hresolve := h.resolve hcount
  have hheld : s.names.held (s.names.name r) = s.map (s.ref r).fString := rfl
  cases hmap : s.map (s.ref r).fString with
  | some r' =>
    have hheld' : s.names.held (s.ref r).fString = some r' := hmap
    simp only [RefTable.resolve, nameApply, hmap, hheld'] at hresolve
    simp only [RefTable.registerOrResolve, RefTable.resolve, nameApply, hheld, hmap]
    exact hresolve
  | none =>
    simp only [RefTable.registerOrResolve, RefTable.resolve, nameApply, hheld, hmap]
    exact ⟨h.add hset hmap, congrArg (Prod.mk _) (h.names_add hset hmap)⟩

theorem Sound.swap (h : s.Sound) (hset : s.IsSet r) :
    (s.swap r).Sound ∧ (Answer.done, (s.swap r).names) = nameApply (.swap r) s.names := by
  have hheld : s.names.held (s.names.name r) = s.map (s.ref r).fString := rfl
  cases hmap : s.map (s.ref r).fString with
  | none =>
    simp only [RefTable.swap, nameApply, hheld, hmap]
    exact ⟨h, rfl⟩
  | some old =>
    simp only [RefTable.swap, nameApply, hheld, hmap]
    have hremove := h.removeEntry old
    have hgone : (s.removeEntry old).map (s.ref r).fString = none := by
      rw [hremove.map_eq_none_iff]
      intro r' hr' heq
      obtain ⟨hne, hin⟩ := h.inTable_removeEntry.mp hr'
      obtain ⟨hold, hkey⟩ := h.map_eq_some_iff.mp hmap
      exact hne (h.unique r' old hin hold (Eq.trans heq hkey.symm))
    refine ⟨hremove.add hset hgone, congrArg (Prod.mk _) ?_⟩
    rw [hremove.names_add hset hgone, h.names_removeEntry, Names.drop]
    have hkey := (h.map_eq_some_iff.mp hmap).2
    have hdrop : s.names.held (s.names.name old) = some old := (congrArg s.map hkey).trans hmap
    rw [if_pos hdrop]
    have hheld : Function.update (Function.update s.names.held (s.ref old).fString none) (s.ref r).fString (some r) =
        Function.update s.names.held (s.ref r).fString (some r) := by
      rw [hkey, Function.update_idem]
    exact congrArg (fun held => Names.mk s.names.name s.names.object held s.names.uses) hheld

/-- One call answers as the names do, and leaves what they leave. -/
theorem Sound.apply (h : s.Sound) {op : Op} (hop : Allowed s op) :
    (apply op s).2.Sound ∧ ((apply op s).1, (apply op s).2.names) = nameApply op s.names := by
  cases op with
  | set r inString inObjectP =>
    obtain ⟨hsound, hnames⟩ := h.set hop inString inObjectP
    exact ⟨hsound, congrArg (Prod.mk _) hnames⟩
  | register r => exact h.register hop
  | registerOrResolve r => exact h.registerOrResolve hop.1 hop.2
  | resolve key => exact h.resolve hop
  | release r =>
    obtain ⟨hsound, hnames⟩ := h.setCount r ((s.ref r).fRefCount - 1)
    have htoNat : ((s.ref r).fRefCount - 1).toNat = (s.ref r).fRefCount.toNat - 1 := by
      have hpos : 0 < (s.ref r).fRefCount.toNat := hop
      bv_omega
    rw [htoNat] at hnames
    exact ⟨hsound, congrArg (Prod.mk _) hnames⟩
  | unRegister r refCount =>
    simp only [OSRefs.apply, RefTable.unRegister, nameApply]
    by_cases hcount : refCount < (s.ref r).fRefCount.toNat
    · have huses : refCount < s.names.uses r := hcount
      rw [if_pos hcount, if_pos huses]
      exact ⟨h, rfl⟩
    · have huses : ¬refCount < s.names.uses r := hcount
      rw [if_neg hcount, if_neg huses]
      exact ⟨h.removeEntry r, congrArg (Prod.mk _) (h.names_removeEntry r)⟩
  | tryUnRegister r refCount =>
    simp only [OSRefs.apply, RefTable.tryUnRegister, RefTable.unRegister, nameApply]
    by_cases hcount : refCount < (s.ref r).fRefCount.toNat
    · have huses : refCount < s.names.uses r := hcount
      rw [if_pos hcount, if_pos huses]
      exact ⟨h, rfl⟩
    · have huses : ¬refCount < s.names.uses r := hcount
      rw [if_neg hcount, if_neg huses]
      exact ⟨h.removeEntry r, congrArg (Prod.mk _) (h.names_removeEntry r)⟩
  | swap r => exact h.swap hop

end RefTable

/-! ## Whole runs -/

/-- A call with its answer -/
def Call (s : RefTable) (call : Op × Answer) (s' : RefTable) : Prop := apply call.1 s = (call.2, s')

def NameCall (D : Names) (call : Op × Answer) (D' : Names) : Prop := nameApply call.1 D = (call.2, D')

theorem fresh_sound {tableSize : ℕ} (hsize : 0 < tableSize) (garbage : ℕ → BitVec 32) :
    (RefTable.fresh tableSize garbage).Sound := by
  have hout : ∀ r, ¬(RefTable.fresh tableSize garbage).InTable r := by
    rintro r ⟨i, hi⟩
    exact absurd hi List.not_mem_nil
  exact ⟨hsize, fun i r hr => absurd ⟨i, hr⟩ (hout r), fun i => List.nodup_nil, fun r hr => absurd hr (hout r),
    fun r r' hr => absurd hr (hout r)⟩

theorem RefTable.Sound.run {s t : RefTable} (hs : s.Sound) {calls : List (Op × Answer)}
    (h : Reaches Call (fun s call => Allowed s call.1) s calls t) :
    t.Sound ∧ Reaches NameCall (fun _ _ => True) s.names calls t.names := by
  induction h with
  | nil s => exact ⟨hs, .nil _⟩
  | @cons s s' t call calls allowed taken _ ih =>
    obtain ⟨hsound, hnames⟩ := hs.apply allowed
    rw [taken] at hsound hnames
    obtain ⟨ht, hrest⟩ := ih hsound
    exact ⟨ht, .cons trivial hnames.symm hrest⟩

/-! ### Counting -/

/-- The calls that have resolved `r` -/
def resolved (r : ℕ) (calls : List (Op × Answer)) : ℕ := calls.countP fun call => call.2 = .found (some r)

def released (r : ℕ) (calls : List (Op × Answer)) : ℕ := calls.countP fun call => call.1 = .release r

theorem nameApply_uses {op : Op} {D D' : Names} {answer : Answer} (h : nameApply op D = (answer, D'))
    (hop : ∀ r, op = .release r → 0 < D.uses r) (r : ℕ) :
    (D'.uses r + if op = .release r then 1 else 0) = D.uses r + if answer = .found (some r) then 1 else 0 := by
  have huse : ∀ r' n, (D.use r' n).uses r = if r = r' then n else D.uses r := fun r' n => Function.update_apply ..
  have hhold : ∀ key o, (D.hold key o).uses = D.uses := fun _ _ => rfl
  have hdrop : ∀ r', (D.drop r').uses = D.uses := by
    intro r'
    rw [Names.drop]
    split <;> rfl
  cases op with
  | set r' key inObjectP =>
    obtain ⟨rfl, rfl⟩ := Prod.mk.inj h
    rfl
  | register r' =>
    rw [nameApply] at h
    split at h <;> obtain ⟨rfl, rfl⟩ := Prod.mk.inj h <;> rfl
  | registerOrResolve r' =>
    simp only [nameApply] at h
    split at h <;> obtain ⟨rfl, rfl⟩ := Prod.mk.inj h
    · grind
    · rfl
  | resolve key =>
    simp only [nameApply] at h
    split at h <;> obtain ⟨rfl, rfl⟩ := Prod.mk.inj h
    · grind
    · rfl
  | release r' =>
    obtain ⟨rfl, rfl⟩ := Prod.mk.inj h
    have hpos := hop r' rfl
    rw [huse]
    grind
  | unRegister r' n =>
    rw [nameApply] at h
    split at h <;> obtain ⟨rfl, rfl⟩ := Prod.mk.inj h
    · rfl
    · rw [hdrop]
      rfl
  | tryUnRegister r' n =>
    rw [nameApply] at h
    split at h <;> obtain ⟨rfl, rfl⟩ := Prod.mk.inj h
    · rfl
    · rw [hdrop]
      rfl
  | swap r' =>
    obtain ⟨rfl, rfl⟩ := Prod.mk.inj h
    split <;> rfl

theorem RefTable.Sound.uses_run {s t : RefTable} (hs : s.Sound) {calls : List (Op × Answer)}
    (h : Reaches Call (fun s call => Allowed s call.1) s calls t) (r : ℕ) :
    t.names.uses r + released r calls = s.names.uses r + resolved r calls := by
  induction h with
  | nil s => rfl
  | @cons s s' t call calls allowed taken _ ih =>
    obtain ⟨hsound, hnames⟩ := hs.apply allowed
    rw [taken] at hsound hnames
    have hpos : ∀ r', call.1 = .release r' → 0 < s.names.uses r' := by
      intro r' hr'
      rw [hr'] at allowed
      exact allowed
    have hstep := nameApply_uses hnames.symm hpos r
    have hrest := ih hsound
    simp only [released, resolved, List.countP_cons, decide_eq_true_eq] at hrest hstep ⊢
    omega

/-- From a fresh table on, every run of calls answers as the names do: one reference to a name, and the one put in last
after a `Swap`. A name that is found is that of its reference, as many use a reference as have resolved it and not
released it, and a reference is taken out at once only when nobody uses it. -/
theorem ref_table_refines_names {tableSize : ℕ} (hsize : 0 < tableSize) {garbage : ℕ → BitVec 32}
    {calls : List (Op × Answer)} {t : RefTable}
    (h : Reaches Call (fun s call => Allowed s call.1) (.fresh tableSize garbage) calls t) :
    Reaches NameCall (fun _ _ => True) .none calls t.names ∧
      (∀ key r, t.map key = some r → t.names.name r = key) ∧
      (∀ r, t.names.uses r + released r calls = resolved r calls) ∧
      ∀ r, (apply (.unRegister r 0) t).1 = .done ↔ released r calls = resolved r calls := by
  obtain ⟨ht, hnames⟩ := (fresh_sound hsize garbage).run h
  have huses : ∀ r, t.names.uses r + released r calls = resolved r calls := by
    intro r
    have := (fresh_sound hsize garbage).uses_run h r
    simpa [RefTable.fresh, RefTable.names] using this
  refine ⟨hnames, fun key r hmap => (ht.map_eq_some_iff.mp hmap).2, huses, fun r => ?_⟩
  have hcall := (ht.apply (show Allowed t (.unRegister r 0) from trivial)).2
  have hanswer : (apply (.unRegister r 0) t).1 = (nameApply (.unRegister r 0) t.names).1 := congrArg Prod.fst hcall
  rw [hanswer, nameApply]
  have := huses r
  split
  · simp only [reduceCtorEq, false_iff]
    omega
  · simp only [true_iff]
    omega

/-- Two references of one name, in a table of seven chains: the second resolves the first, and takes its place later. -/
def exampleCalls : List (Op × Answer) :=
  [(.set 1 [5, 6] 70, .done), (.set 2 [5, 6] 71, .done), (.register 1, .flag true), (.register 2, .flag false),
    (.registerOrResolve 2, .found (some 1)), (.unRegister 1 0, .waits), (.swap 2, .done), (.release 1, .done),
    (.unRegister 1 0, .done), (.resolve [5, 6], .found (some 2))]

def exampleTable : RefTable := exampleCalls.foldl (fun s call => (apply call.1 s).2) (.fresh 7 fun _ => 3)

theorem ref_table_refines_names_example :
    Reaches NameCall (fun _ _ => True) .none exampleCalls exampleTable.names ∧
      (∀ key r, exampleTable.map key = some r → exampleTable.names.name r = key) ∧
      (∀ r, exampleTable.names.uses r + released r exampleCalls = resolved r exampleCalls) ∧
      ∀ r, (apply (.unRegister r 0) exampleTable).1 = .done ↔ released r exampleCalls = resolved r exampleCalls := by
  have hfresh : ∀ r, ¬(RefTable.fresh 7 fun _ => 3).InTable r := fun r ⟨i, hi⟩ => absurd hi List.not_mem_nil
  exact ref_table_refines_names (by decide)
    (.cons (hfresh 1) rfl (.cons (hfresh 2) rfl (.cons (show RefTable.IsSet _ _ by decide) rfl
      (.cons (show RefTable.IsSet _ _ by decide) rfl
        (.cons ⟨by decide, fun r hr => (Option.some.inj hr : 1 = r) ▸ by decide⟩ rfl
          (.cons trivial rfl (.cons (show RefTable.IsSet _ _ by decide) rfl
            (.cons (show 0 < _ by decide) rfl (.cons trivial rfl
              (.cons (fun r hr => (Option.some.inj hr : 2 = r) ▸ by decide) rfl (.nil _)))))))))))

end Tefs.DataServer.OSRefs

import Mathlib.Data.List.Pairwise
import Mathlib.Data.List.Basic

/-! # Red-black trees with parent pointers

A node and the chain of its parents is a tree with a place in it: `zip path t` is the whole tree, where `path` runs from
the parent of `t` up to the root. The two mirrored halves of each repair loop are one, read from a side. Nothing comes
back from an operation that would follow a pointer that is not there.
-/

namespace Tefs.RedBlack
set_option autoImplicit false

inductive Color
  | red
  | black
  deriving DecidableEq, Repr

inductive Side
  | left
  | right
  deriving DecidableEq, Repr

def Side.flip : Side → Side
  | left => right
  | right => left

inductive Tree (α : Type*)
  | nil
  | node (color : Color) (left : Tree α) (x : α) (right : Tree α)
  deriving DecidableEq, Repr

/-- A parent: the subtree below it hangs on `side`, the other one is `sibling`. -/
structure Frame (α : Type*) where
  side : Side
  color : Color
  x : α
  sibling : Tree α

variable {α : Type*}

namespace Tree

def isRed : Tree α → Bool
  | node .red _ _ _ => true
  | _ => false

def blacken : Tree α → Tree α
  | nil => nil
  | node _ l x r => node .black l x r

def toList : Tree α → List α
  | nil => []
  | node _ l x r => l.toList ++ x :: r.toList

/-- The node with `near` on the side `s` -/
def join : Side → Color → Tree α → α → Tree α → Tree α
  | .left, c, near, x, far => node c near x far
  | .right, c, near, x, far => node c far x near

def view : Side → Tree α → Option (Color × Tree α × α × Tree α)
  | _, nil => none
  | .left, node c l x r => some (c, l, x, r)
  | .right, node c l x r => some (c, r, x, l)

/-- The rotation that moves the node down to the side `s` -/
def rotate (s : Side) (t : Tree α) : Option (Tree α) :=
  (t.view s).bind fun (c, near, x, far) =>
  (far.view s).bind fun (c', near', x', far') =>
  some (join s c' (join s c near x near') x' far')

end Tree

open Tefs.RedBlack.Tree

def Frame.fill (p : Frame α) (t : Tree α) : Tree α := join p.side p.color t p.x p.sibling

def zip : List (Frame α) → Tree α → Tree α
  | [], t => t
  | p :: path, t => zip path (p.fill t)

/-! ## Search -/

/-- The leftmost node -/
def Tree.min : Tree α → Option α
  | nil => none
  | node _ nil x _ => some x
  | node _ l _ _ => l.min

/-- `side y` is where to go on from `y`, and nothing at the node that is looked for. -/
def Tree.lookup (side : α → Option Side) : Tree α → Option α
  | nil => none
  | node _ l y r =>
    match side y with
    | none => some y
    | some .left => l.lookup side
    | some .right => r.lookup side

/-! ## Insertion -/

def descend (side : α → Option Side) : Tree α → List (Frame α) → Option (List (Frame α))
  | nil, path => some path
  | node c l y r, path =>
    match side y with
    | none => none
    | some .left => descend side l (⟨.left, c, y, r⟩ :: path)
    | some .right => descend side r (⟨.right, c, y, l⟩ :: path)

/-- The parent, after the rotation that brings a node on its inner side to the outer one -/
def outward (g p : Frame α) (t : Tree α) : Option (Tree α) :=
  if p.side = g.side then some (p.fill t) else rotate g.side (p.fill t)

/-- The repair loop of an insertion, at the red node `t` -/
def insertFix : List (Frame α) → Tree α → Option (Tree α)
  | [], t => some t.blacken
  | [p], t => if p.color = .red then none else some (zip [p] t).blacken
  | p :: g :: path, t =>
    if p.color = .red then
      if g.sibling.isRed then
        insertFix path (join g.side .red (join p.side .black t p.x p.sibling) g.x g.sibling.blacken)
      else
        (outward g p t).bind fun parent =>
        (rotate g.side.flip (join g.side .red parent.blacken g.x g.sibling)).bind fun top =>
        some (zip path top).blacken
    else some (zip (p :: g :: path) t).blacken

def Tree.insert (side : α → Option Side) (x : α) (t : Tree α) : Option (Tree α) :=
  (descend side t []).bind fun path => insertFix path (node .red nil x nil)

/-! ## Deletion -/

/-- The place of `x` -/
def locate [DecidableEq α] (x : α) : Tree α → List (Frame α) → Option (List (Frame α) × Color × Tree α × Tree α)
  | nil, _ => none
  | node c l y r, path =>
    if y = x then some (path, c, l, r)
    else
      match locate x l (⟨.left, c, y, r⟩ :: path) with
      | some place => some place
      | none => locate x r (⟨.right, c, y, l⟩ :: path)

/-- The place of the leftmost node -/
def leftmost : Tree α → List (Frame α) → Option (List (Frame α) × Color × α × Tree α)
  | nil, _ => none
  | node c nil x r, path => some (path, c, x, r)
  | node c l x r, path => leftmost l (⟨.left, c, x, r⟩ :: path)

/-- The sibling `w` with its red child on the side away from `s` -/
def redFar (s : Side) (c : Color) (near : Tree α) (x : α) (far : Tree α) : Option (Tree α) :=
  if far.isRed then some (join s c near x far) else rotate s.flip (join s .red near.blacken x far)

/-- The second half of a turn of the repair loop of a deletion, with a sibling that is not red: the tree is done, or the
loop goes on at the parent. -/
def deleteTurn (p : Frame α) (path : List (Frame α)) (t : Tree α) : Option (Tree α ⊕ Tree α) :=
  (p.sibling.view p.side).bind fun (c, near, x, far) =>
  if ¬ near.isRed ∧ ¬ far.isRed then some (.inr (join p.side p.color t p.x (join p.side .red near x far)))
  else
    (redFar p.side c near x far).bind fun w =>
    (w.view p.side).bind fun (_, near, x, far) =>
    (rotate p.side (join p.side .black t p.x (join p.side p.color near x far.blacken))).bind fun top =>
    some (.inl (zip path top).blacken)

/-- The repair loop of a deletion: the subtree `t` has a black node too few. -/
def deleteFix : ℕ → List (Frame α) → Tree α → Option (Tree α)
  | _, [], t => some t.blacken
  | 0, _ :: _, _ => none
  | fuel + 1, p :: path, t =>
    if t.isRed then some (zip (p :: path) t.blacken)
    else if p.sibling.isRed then
      (p.sibling.view p.side).bind fun (_, near, x, far) =>
      let path := ⟨p.side, .black, x, far⟩ :: path
      (deleteTurn ⟨p.side, .red, p.x, near⟩ path t).bind fun turn => turn.elim some (deleteFix fuel path)
    else (deleteTurn p path t).bind fun turn => turn.elim some (deleteFix fuel path)

/-- `temp` takes the place of a node of the color `c`. -/
def detach (c : Color) (path : List (Frame α)) (temp : Tree α) : Option (Tree α) :=
  match path with
  | [] => some temp.blacken
  | p :: path => if c = .red then some (zip (p :: path) temp) else deleteFix (path.length + 2) (p :: path) temp

def Tree.delete [DecidableEq α] (x : α) (t : Tree α) : Option (Tree α) :=
  (locate x t []).bind fun (path, c, l, r) =>
  match l, r with
  | nil, r => detach c path r
  | l, nil => detach c path l
  | l, r =>
    -- The next node of the order takes the place and the color of `x`.
    (leftmost r []).bind fun (below, c', y, temp) => detach c' (below ++ ⟨.right, c, y, l⟩ :: path) temp

/-! ## The order -/

section Order

variable {path : List (Frame α)} {t t' : Tree α}

@[simp] theorem view_join (s : Side) (c : Color) (near : Tree α) (x : α) (far : Tree α) :
    (join s c near x far).view s = some (c, near, x, far) := by cases s <;> rfl

theorem join_flip (s : Side) (c : Color) (near : Tree α) (x : α) (far : Tree α) :
    join s.flip c near x far = join s c far x near := by cases s <;> rfl

theorem eq_join {s : Side} {c : Color} {near far : Tree α} {x : α} (h : t.view s = some (c, near, x, far)) :
    t = join s c near x far := by
  cases t with
  | nil => cases s <;> cases h
  | node c' l y r => cases s <;> cases h <;> rfl

/-- The nodes of `a`, `x` and the nodes of `b`, from the side `s` -/
def order (s : Side) (a : List α) (x : α) (b : List α) : List α :=
  match s with
  | .left => a ++ x :: b
  | .right => b ++ x :: a

@[simp] theorem toList_join (s : Side) (c : Color) (near : Tree α) (x : α) (far : Tree α) :
    (join s c near x far).toList = order s near.toList x far.toList := by cases s <;> rfl

@[simp] theorem toList_blacken (t : Tree α) : t.blacken.toList = t.toList := by cases t <;> rfl

theorem order_order (s : Side) (a : List α) (x : α) (b : List α) (y : α) (d : List α) :
    order s (order s a x b) y d = order s a x (order s b y d) := by
  cases s <;> simp [order]

theorem rotate_join (s : Side) (c c' : Color) (a b d : Tree α) (x y : α) :
    rotate s (join s c a x (join s c' b y d)) = some (join s c' (join s c a x b) y d) := by
  simp [rotate]

theorem toList_rotate {s : Side} (h : rotate s t = some t') : t'.toList = t.toList := by
  simp only [rotate, Option.bind_eq_some_iff] at h
  obtain ⟨⟨c, near, x, far⟩, hview, ⟨c', near', x', far'⟩, hfar, htop⟩ := h
  cases htop
  have ht : t.toList = order s near.toList x far.toList := by rw [eq_join hview, toList_join]
  have hbelow : far.toList = order s near'.toList x' far'.toList := by
    rw [← toList_join s c', ← eq_join hfar]
  rw [toList_join, toList_join, order_order, ht, hbelow]

theorem toList_zip_congr (path : List (Frame α)) (h : t.toList = t'.toList) :
    (zip path t).toList = (zip path t').toList := by
  induction path generalizing t t' with
  | nil => exact h
  | cons p path ih =>
    apply ih
    rw [Frame.fill, Frame.fill, toList_join, toList_join, h]

theorem zip_append (below path : List (Frame α)) (t : Tree α) : zip (below ++ path) t = zip path (zip below t) := by
  induction below generalizing t with
  | nil => rfl
  | cons p below ih => exact ih (p.fill t)

/-- What stands around the place that a path leads to -/
theorem toList_zip (path : List (Frame α)) : ∃ b a : List α, ∀ t : Tree α, (zip path t).toList = b ++ t.toList ++ a := by
  induction path with
  | nil => exact ⟨[], [], fun t => by simp [zip]⟩
  | cons p path ih =>
    obtain ⟨b, a, hzip⟩ := ih
    cases hside : p.side with
    | left =>
      refine ⟨b, p.x :: p.sibling.toList ++ a, fun t => ?_⟩
      rw [zip, hzip, Frame.fill, hside]
      simp [join, toList]
    | right =>
      refine ⟨b ++ p.sibling.toList ++ [p.x], a, fun t => ?_⟩
      rw [zip, hzip, Frame.fill, hside]
      simp [join, toList]

theorem toList_outward {g p : Frame α} (h : outward g p t = some t') : t'.toList = (p.fill t).toList := by
  rw [outward] at h
  split at h
  · cases h
    rfl
  · exact toList_rotate h

theorem toList_insertFix (h : insertFix path t = some t') : t'.toList = (zip path t).toList := by
  fun_induction insertFix path t with
  | case1 t =>
    cases h
    simp [zip]
  | case2 => cases h
  | case3 p t hblack =>
    cases h
    exact toList_blacken _
  | case4 p g path t hred huncle ih =>
    rw [ih h]
    apply toList_zip_congr path
    simp [Frame.fill]
  | case5 p g path t hred huncle =>
    simp only [Option.bind_eq_some_iff] at h
    obtain ⟨parent, hparent, top, htop, heq⟩ := h
    cases heq
    rw [toList_blacken]
    apply toList_zip_congr path
    rw [toList_rotate htop, Frame.fill, toList_join, toList_join, toList_blacken, toList_outward hparent]
  | case6 p g path t hblack =>
    cases h
    exact toList_blacken _

theorem toList_redFar {s : Side} {c : Color} {near far w : Tree α} {x : α} (h : redFar s c near x far = some w) :
    w.toList = order s near.toList x far.toList := by
  rw [redFar] at h
  split at h
  · cases h
    exact toList_join _ _ _ _ _
  · rw [toList_rotate h, toList_join, toList_blacken]

/-- The whole tree or the subtree below `path` that a turn leaves -/
def whole (path : List (Frame α)) (turn : Tree α ⊕ Tree α) : Tree α := turn.elim id (zip path)

theorem toList_deleteTurn {p : Frame α} {turn : Tree α ⊕ Tree α} (h : deleteTurn p path t = some turn) :
    (whole path turn).toList = (zip (p :: path) t).toList := by
  simp only [deleteTurn, Option.bind_eq_some_iff] at h
  obtain ⟨⟨c, near, x, far⟩, hview, h⟩ := h
  have hsibling : p.sibling.toList = order p.side near.toList x far.toList := by
    rw [← toList_join p.side c, ← eq_join hview]
  dsimp only at h
  split at h
  · cases h
    apply toList_zip_congr path
    rw [Frame.fill, toList_join, toList_join, toList_join, hsibling]
  · simp only [Option.bind_eq_some_iff] at h
    obtain ⟨w, hw, ⟨c', near', x', far'⟩, hview', top, htop, heq⟩ := h
    cases heq
    have hlist : order p.side near'.toList x' far'.toList = order p.side near.toList x far.toList := by
      rw [← toList_join p.side c', ← eq_join hview', toList_redFar hw]
    rw [whole, Sum.elim_inl, id, toList_blacken]
    apply toList_zip_congr path
    rw [toList_rotate htop, Frame.fill, toList_join, toList_join, toList_join, toList_blacken, hlist, hsibling]

theorem toList_deleteFix {fuel : ℕ} (h : deleteFix fuel path t = some t') : t'.toList = (zip path t).toList := by
  induction fuel generalizing path t with
  | zero =>
    cases path with
    | nil =>
      cases h
      exact toList_blacken t
    | cons p path => cases h
  | succ fuel ih =>
    have hturn : ∀ {p path t}, ((deleteTurn p path t).bind fun turn => turn.elim some (deleteFix fuel path)) = some t' →
        t'.toList = (zip (p :: path) t).toList := by
      intro p path t h
      obtain ⟨turn, hturn, h⟩ := Option.bind_eq_some_iff.mp h
      rw [← toList_deleteTurn hturn]
      cases turn with
      | inl whole =>
        cases h
        rfl
      | inr t => exact ih h
    cases path with
    | nil =>
      cases h
      exact toList_blacken t
    | cons p path =>
      rw [deleteFix] at h
      split at h
      · cases h
        exact toList_zip_congr (p :: path) (toList_blacken t)
      · split at h
        · obtain ⟨⟨c, near, x, far⟩, hview, h⟩ := Option.bind_eq_some_iff.mp h
          have hsibling : p.sibling.toList = order p.side near.toList x far.toList := by
            rw [← toList_join p.side c, ← eq_join hview]
          rw [hturn h]
          apply toList_zip_congr path
          rw [Frame.fill, Frame.fill, Frame.fill, toList_join, toList_join, toList_join, hsibling, order_order]
        · exact hturn h

theorem toList_detach {c : Color} (h : detach c path t = some t') : t'.toList = (zip path t).toList := by
  cases path with
  | nil =>
    cases h
    exact toList_blacken t
  | cons p path =>
    rw [detach] at h
    split at h
    · cases h
      rfl
    · exact toList_deleteFix h

end Order

/-! ## Places -/

section Places

variable {path : List (Frame α)} {t t' : Tree α} {x : α}

theorem min_eq_head? (t : Tree α) : t.min = t.toList.head? := by
  fun_induction Tree.min t with
  | case1 => rfl
  | case2 => rfl
  | case3 c l x r hl ih =>
    have hne : l.toList ≠ [] := by
      cases l with
      | nil => exact absurd rfl hl
      | node => simp [toList]
    rw [ih, toList, List.head?_append_of_ne_nil _ hne]

theorem zip_of_descend {side : α → Option Side} {path' : List (Frame α)} (h : descend side t path = some path') :
    zip path' nil = zip path t := by
  fun_induction descend side t path with
  | case1 path =>
    cases h
    rfl
  | case2 => cases h
  | case3 path c l y r hside ih => exact ih h
  | case4 path c l y r hside ih => exact ih h

/-- Where the search ends, `x` stands in order. -/
theorem descend_ordered (path : List (Frame α)) {R : α → α → Prop} (htrans : ∀ a b c, R a b → R b c → R a c) {side : α → Option Side}
    (hleft : ∀ y ∈ t.toList, side y = some .left → R x y) (hright : ∀ y ∈ t.toList, side y = some .right → R y x)
    (hfound : ∀ y ∈ t.toList, side y ≠ none) (hsorted : t.toList.Pairwise R) :
    ∃ b a path', descend side t path = some (path' ++ path) ∧ t.toList = b ++ a ∧
      (∀ u : Tree α, (zip path' u).toList = b ++ u.toList ++ a) ∧ (∀ y ∈ b, R y x) ∧ ∀ y ∈ a, R x y := by
  induction t generalizing path with
  | nil => exact ⟨[], [], [], rfl, rfl, fun u => by simp [zip], by simp, by simp⟩
  | node c l y r ihl ihr =>
    rw [toList, List.pairwise_append, List.pairwise_cons] at hsorted
    obtain ⟨hl, ⟨hyr, hr⟩, hlr⟩ := hsorted
    have hiny : y ∈ (node c l y r).toList := by simp [toList]
    have hinl : ∀ z ∈ l.toList, z ∈ (node c l y r).toList := fun z hz => by simp [toList, hz]
    have hinr : ∀ z ∈ r.toList, z ∈ (node c l y r).toList := fun z hz => by simp [toList, hz]
    cases hside : side y with
    | none => exact absurd hside (hfound y hiny)
    | some s =>
      cases s with
      | left =>
        obtain ⟨b, a, path', hpath, hlist, hzip, hb, ha⟩ :=
          ihl (⟨.left, c, y, r⟩ :: path) (fun z hz => hleft z (hinl z hz)) (fun z hz => hright z (hinl z hz))
            (fun z hz => hfound z (hinl z hz)) hl
        have hxy := hleft y hiny hside
        refine ⟨b, a ++ y :: r.toList, path' ++ [⟨.left, c, y, r⟩], ?_, ?_, fun u => ?_, hb, fun z hz => ?_⟩
        · rw [descend, hside]
          simpa using hpath
        · rw [toList, hlist, List.append_assoc]
        · rw [zip_append, zip, zip, Frame.fill, join, toList, hzip]
          simp
        · rcases List.mem_append.mp hz with hz | hz
          · exact ha z hz
          · rcases List.mem_cons.mp hz with rfl | hz
            · exact hxy
            · exact htrans _ _ _ hxy (hyr z hz)
      | right =>
        obtain ⟨b, a, path', hpath, hlist, hzip, hb, ha⟩ :=
          ihr (⟨.right, c, y, l⟩ :: path) (fun z hz => hleft z (hinr z hz)) (fun z hz => hright z (hinr z hz))
            (fun z hz => hfound z (hinr z hz)) hr
        have hyx := hright y hiny hside
        refine ⟨l.toList ++ y :: b, a, path' ++ [⟨.right, c, y, l⟩], ?_, ?_, fun u => ?_, fun z hz => ?_, ha⟩
        · rw [descend, hside]
          simpa using hpath
        · rw [toList, hlist]
          simp
        · rw [zip_append, zip, zip, Frame.fill, join, toList, hzip]
          simp
        · rcases List.mem_append.mp hz with hz | hz
          · exact htrans _ _ _ (hlr z hz y List.mem_cons_self) hyx
          · rcases List.mem_cons.mp hz with rfl | hz
            · exact hyx
            · exact hb z hz

theorem zip_of_locate [DecidableEq α] {c : Color} {l r : Tree α} {path' : List (Frame α)}
    (h : locate x t path = some (path', c, l, r)) : zip path' (node c l x r) = zip path t := by
  fun_induction locate x t path with
  | case1 => cases h
  | case2 =>
    cases h
    rfl
  | case3 path c l y r hne place hplace ih =>
    cases h
    exact ih hplace
  | case4 path c l y r hne hnone ihl ihr => exact ihr h

theorem locate_isSome [DecidableEq α] (hx : x ∈ t.toList) (path : List (Frame α)) : (locate x t path).isSome := by
  induction t generalizing path with
  | nil => cases hx
  | node c l y r ihl ihr =>
    rw [locate]
    split
    · rfl
    next hne =>
      split
      · rfl
      next hnone =>
        rw [toList, List.mem_append, List.mem_cons] at hx
        rcases hx with hl | rfl | hr
        · have hsome := ihl hl (⟨.left, c, y, r⟩ :: path)
          rw [hnone] at hsome
          cases hsome
        · exact absurd rfl hne
        · exact ihr hr _

/-- The leftmost node, and the tree without it -/
theorem leftmost_eq {c : Color} {y : α} {temp : Tree α} {path' : List (Frame α)}
    (h : leftmost t path = some (path', c, y, temp)) :
    ∃ below, path' = below ++ path ∧ zip below (node c nil y temp) = t ∧ t.toList = y :: (zip below temp).toList := by
  fun_induction leftmost t path with
  | case1 => cases h
  | case2 =>
    cases h
    exact ⟨[], rfl, rfl, rfl⟩
  | case3 c l x r path hl ih =>
    obtain ⟨below, rfl, hzip, hlist⟩ := ih h
    refine ⟨below ++ [⟨.left, c, x, r⟩], by simp, ?_, ?_⟩
    · rw [zip_append, hzip]
      rfl
    · rw [zip_append, toList, hlist]
      rfl

theorem leftmost_isSome (hne : t ≠ nil) (path : List (Frame α)) : (leftmost t path).isSome := by
  fun_induction leftmost t path with
  | case1 => exact absurd rfl hne
  | case2 => rfl
  | case3 c l x r path hl ih => exact ih hl

end Places

/-! ## The balance -/

/-- `n` black nodes on every way down, and no red child of a red node -/
inductive Balanced : Tree α → ℕ → Prop
  | nil : Balanced .nil 0
  | red {l r : Tree α} {x : α} {n : ℕ} (left : Balanced l n) (right : Balanced r n) (leftBlack : l.isRed = false)
      (rightBlack : r.isRed = false) : Balanced (.node .red l x r) n
  | black {l r : Tree α} {x : α} {n : ℕ} (left : Balanced l n) (right : Balanced r n) :
      Balanced (.node .black l x r) (n + 1)

/-- A path that leads from the root to a place for a tree with `n` black nodes on every way down -/
inductive Hole : List (Frame α) → ℕ → Prop
  | root (n : ℕ) : Hole [] n
  | black {s : Side} {x : α} {sibling : Tree α} {path : List (Frame α)} {n : ℕ} (balanced : Balanced sibling n)
      (above : Hole path (n + 1)) : Hole (⟨s, .black, x, sibling⟩ :: path) n
  | red {s s' : Side} {x x' : α} {sibling sibling' : Tree α} {path : List (Frame α)} {n : ℕ}
      (balanced : Balanced sibling n) (siblingBlack : sibling.isRed = false)
      (above : Hole (⟨s', .black, x', sibling'⟩ :: path) n) :
      Hole (⟨s, .red, x, sibling⟩ :: ⟨s', .black, x', sibling'⟩ :: path) n

def Accepts : List (Frame α) → Tree α → Prop
  | [], t => t.isRed = false
  | p :: _, t => p.color = .red → t.isRed = false

/-- The rules of a red-black tree -/
def Sound (t : Tree α) : Prop := t.isRed = false ∧ ∃ n, Balanced t n

section Balance

variable {path : List (Frame α)} {t t' : Tree α} {n : ℕ} {s : Side} {a b : Tree α} {x : α}

theorem balanced_join_red :
    Balanced (join s .red a x b) n ↔ Balanced a n ∧ Balanced b n ∧ a.isRed = false ∧ b.isRed = false := by
  constructor
  · intro h
    cases s <;> cases h <;> simp [*]
  · rintro ⟨ha, hb, hab, hbb⟩
    cases s
    · exact .red ha hb hab hbb
    · exact .red hb ha hbb hab

theorem balanced_join_black : Balanced (join s .black a x b) (n + 1) ↔ Balanced a n ∧ Balanced b n := by
  constructor
  · intro h
    cases s <;> cases h <;> simp [*]
  · rintro ⟨ha, hb⟩
    cases s
    · exact .black ha hb
    · exact .black hb ha

theorem isRed_join (s : Side) (c : Color) (a : Tree α) (x : α) (b : Tree α) :
    (join s c a x b).isRed = decide (c = .red) := by
  cases s <;> cases c <;> rfl

theorem blacken_join (s : Side) (c : Color) (a : Tree α) (x : α) (b : Tree α) :
    (join s c a x b).blacken = join s .black a x b := by cases s <;> rfl

theorem isRed_blacken (t : Tree α) : t.blacken.isRed = false := by cases t <;> rfl

theorem blacken_of_black (h : t.isRed = false) : t.blacken = t := by
  cases t with
  | nil => rfl
  | node c l x r =>
    cases c with
    | red => cases h
    | black => rfl

/-- A red node, seen from a side -/
theorem exists_of_isRed (s : Side) (h : t.isRed = true) : ∃ a x b, t = join s .red a x b := by
  cases t with
  | nil => cases h
  | node c l x r =>
    cases c with
    | red =>
      cases s with
      | left => exact ⟨l, x, r, rfl⟩
      | right => exact ⟨r, x, l, rfl⟩
    | black => cases h

/-- A tree that has a black node is no leaf. -/
theorem Balanced.exists_join (h : Balanced t (n + 1)) (s : Side) (hblack : t.isRed = false) :
    ∃ a x b, t = join s .black a x b ∧ Balanced a n ∧ Balanced b n := by
  cases h with
  | red => cases hblack
  | black hl hr =>
    cases s with
    | left => exact ⟨_, _, _, rfl, hl, hr⟩
    | right => exact ⟨_, _, _, rfl, hr, hl⟩

theorem Balanced.blacken_red (h : Balanced t n) (hred : t.isRed = true) : Balanced t.blacken (n + 1) := by
  cases h with
  | nil => cases hred
  | red hl hr => exact .black hl hr
  | black => cases hred

theorem Balanced.sound_blacken (h : Balanced t n) : Sound t.blacken := by
  refine ⟨isRed_blacken t, ?_⟩
  cases h with
  | nil => exact ⟨0, .nil⟩
  | red hl hr => exact ⟨_, .black hl hr⟩
  | black hl hr => exact ⟨_, .black hl hr⟩

/-- What makes a tree with a place in it a red-black tree -/
theorem sound_zip_iff : Sound (zip path t) ↔ ∃ n, Hole path n ∧ Balanced t n ∧ Accepts path t := by
  induction path generalizing t with
  | nil => exact ⟨fun ⟨hblack, n, hn⟩ => ⟨n, .root n, hn, hblack⟩, fun ⟨n, _, hn, hblack⟩ => ⟨hblack, n, hn⟩⟩
  | cons p path ih =>
    obtain ⟨s, c, x, sibling⟩ := p
    rw [zip, ih, Frame.fill]
    constructor
    · rintro ⟨m, hhole, hbal, hacc⟩
      cases c with
      | red =>
        rw [balanced_join_red] at hbal
        obtain ⟨ht, hsibling, htb, hsb⟩ := hbal
        cases hhole with
        | root =>
          rw [Accepts, isRed_join] at hacc
          simp at hacc
        | black hb habove => exact ⟨m, .red hsibling hsb (.black hb habove), ht, fun _ => htb⟩
        | red hb hbb habove =>
          have := hacc rfl
          rw [isRed_join] at this
          simp at this
      | black =>
        cases m with
        | zero => cases s <;> cases hbal
        | succ n =>
          rw [balanced_join_black] at hbal
          exact ⟨n, .black hbal.2 hhole, hbal.1, fun h => nomatch h⟩
    · rintro ⟨m, hhole, hbal, hacc⟩
      cases hhole with
      | black hsibling habove =>
        refine ⟨m + 1, habove, balanced_join_black.mpr ⟨hbal, hsibling⟩, ?_⟩
        cases path with
        | nil => rw [Accepts, isRed_join]; rfl
        | cons => exact fun _ => by rw [isRed_join]; rfl
      | red hsibling hsb habove =>
        exact ⟨m, habove, balanced_join_red.mpr ⟨hbal, hsibling, hacc rfl, hsb⟩, fun h => nomatch h⟩

theorem Sound.blacken_eq (h : Sound t) : t.blacken = t := blacken_of_black h.1

theorem Sound.relabel {c : Color} (h : Sound (zip path (node c a x b))) (y : α) : Sound (zip path (node c a y b)) := by
  obtain ⟨n, hhole, hbal, hacc⟩ := sound_zip_iff.mp h
  refine sound_zip_iff.mpr ⟨n, hhole, ?_, ?_⟩
  · cases hbal with
    | red ha hb hab hbb => exact .red ha hb hab hbb
    | black ha hb => exact .black ha hb
  · cases path <;> cases c <;> exact hacc

theorem insertFix_sound (hhole : Hole path n) (hbal : Balanced t n) (hred : t.isRed = true) :
    ∃ t', insertFix path t = some t' ∧ Sound t' := by
  fun_induction insertFix path t generalizing n with
  | case1 t => exact ⟨_, rfl, hbal.sound_blacken⟩
  | case2 p t hp =>
    cases hhole with
    | black => cases hp
  | case3 p t hp =>
    have hsound : Sound (zip [p] t) := sound_zip_iff.mpr ⟨n, hhole, hbal, fun h => absurd h hp⟩
    exact ⟨_, rfl, by rwa [hsound.blacken_eq]⟩
  | case4 p g path t hp huncle ih =>
    cases hhole with
    | black => cases hp
    | red hsibling hsb habove =>
      cases habove with
      | black hb habove =>
        refine ih habove ?_ ?_
        · refine balanced_join_red.mpr ⟨balanced_join_black.mpr ⟨hbal, hsibling⟩, hb.blacken_red huncle, ?_, ?_⟩
          · rw [isRed_join]
            rfl
          · exact isRed_blacken _
        · rw [isRed_join]
          rfl
  | case5 p g path t hp huncle =>
    cases hhole with
    | black => cases hp
    | @red s s' x x' sibling sibling' _ _ hsibling hsb habove =>
      cases habove with
      | black hb habove =>
        dsimp only at huncle ⊢
        obtain ⟨a, y, b, rfl⟩ := exists_of_isRed s' hred
        obtain ⟨ha, hb', hab, hbb⟩ := balanced_join_red.mp hbal
        have hub : sibling'.isRed = false := by simpa using huncle
        -- The node that comes to the top is black, its two children are red.
        suffices htop : ∃ top, ((outward ⟨s', .black, x', sibling'⟩ ⟨s, .red, x, sibling⟩ (join s' .red a y b)).bind
            fun parent => rotate s'.flip (join s' .red parent.blacken x' sibling')) = some top ∧
            Balanced top (n + 1) ∧ top.isRed = false by
          obtain ⟨top, htop, hbal', hblack⟩ := htop
          obtain ⟨parent, hparent, hrotate⟩ := Option.bind_eq_some_iff.mp htop
          have hsound : Sound (zip path top) := by
            refine sound_zip_iff.mpr ⟨n + 1, habove, hbal', ?_⟩
            cases path with
            | nil => exact hblack
            | cons => exact fun _ => hblack
          refine ⟨zip path top, ?_, hsound⟩
          rw [hparent, Option.bind_some, hrotate, Option.bind_some, hsound.blacken_eq]
        by_cases hside : s = s'
        · subst hside
          refine ⟨join s .black (join s .red a y b) x (join s .red sibling x' sibling'), ?_, ?_, ?_⟩
          · rw [outward, if_pos rfl, Option.bind_some, Frame.fill, blacken_join, ← join_flip, ← join_flip s .black,
              rotate_join]
            simp [join_flip]
          · exact balanced_join_black.mpr ⟨hbal, balanced_join_red.mpr ⟨hsibling, hb, hsb, hub⟩⟩
          · rw [isRed_join]
            rfl
        · obtain rfl : s = s'.flip := by
            cases s <;> cases s' <;> first | rfl | exact absurd rfl hside
          refine ⟨join s' .black (join s' .red sibling x a) y (join s' .red b x' sibling'), ?_, ?_, ?_⟩
          · rw [outward, if_neg hside, Frame.fill, join_flip, rotate_join, Option.bind_some, blacken_join, ← join_flip,
              ← join_flip s' .black, rotate_join]
            simp [join_flip]
          · refine balanced_join_black.mpr ⟨balanced_join_red.mpr ⟨hsibling, ha, hsb, hab⟩, ?_⟩
            exact balanced_join_red.mpr ⟨hb', hb, hbb, hub⟩
          · rw [isRed_join]
            rfl
  | case6 p g path t hp =>
    have hsound : Sound (zip (p :: g :: path) t) := sound_zip_iff.mpr ⟨n, hhole, hbal, fun h => absurd h hp⟩
    exact ⟨_, rfl, by rwa [hsound.blacken_eq]⟩

/-- The sibling with a red child brought to its far side: what hangs on it -/
theorem redFar_eq {near far : Tree α} (hnear : Balanced near n) (hfar : Balanced far n)
    (hred : ¬ (¬ near.isRed ∧ ¬ far.isRed)) : ∃ c a y b, redFar s .black near x far = some (join s c a y b) ∧
      Balanced a n ∧ Balanced b.blacken (n + 1) := by
  by_cases hfarRed : far.isRed
  · exact ⟨.black, near, x, far, by rw [redFar, if_pos hfarRed], hnear, hfar.blacken_red hfarRed⟩
  · have hnearRed : near.isRed = true := by simpa [hfarRed] using hred
    obtain ⟨a, y, b, rfl⟩ := exists_of_isRed s hnearRed
    obtain ⟨ha, hb, -, -⟩ := balanced_join_red.mp hnear
    refine ⟨.black, a, y, join s .red b x far, ?_, ha, ?_⟩
    · rw [redFar, if_neg hfarRed, blacken_join, ← join_flip, ← join_flip s .black, rotate_join]
      simp [join_flip]
    · rw [blacken_join]
      exact balanced_join_black.mpr ⟨hb, hfar⟩

theorem deleteTurn_sound {p : Frame α} (hhole : Hole (p :: path) (n + 1)) (hsb : p.sibling.isRed = false)
    (hbal : Balanced t n) :
    (∃ whole, deleteTurn p path t = some (.inl whole) ∧ Sound whole) ∨
      ∃ t', deleteTurn p path t = some (.inr t') ∧
        (t'.isRed = true ∧ Sound (zip path t'.blacken) ∨ p.color = .black ∧ Hole path (n + 2) ∧ Balanced t' (n + 1)) := by
  obtain ⟨s, c, x, sibling⟩ := p
  dsimp only at hsb ⊢
  have hsibling : Balanced sibling (n + 1) := by cases hhole <;> assumption
  obtain ⟨near, y, far, rfl, hnear, hfar⟩ := hsibling.exists_join s hsb
  rw [deleteTurn]
  simp only [view_join, Option.bind_some]
  by_cases hnephews : ¬ near.isRed ∧ ¬ far.isRed
  · rw [if_pos hnephews]
    have hw : Balanced (join s .red near y far) n :=
      balanced_join_red.mpr ⟨hnear, hfar, by simpa using hnephews.1, by simpa using hnephews.2⟩
    refine .inr ⟨_, rfl, ?_⟩
    cases hhole with
    | black hb habove => exact .inr ⟨rfl, habove, balanced_join_black.mpr ⟨hbal, hw⟩⟩
    | red hb hbb habove =>
      -- The red parent ends the loop, which makes it black.
      refine .inl ⟨by rw [isRed_join]; rfl, sound_zip_iff.mpr ⟨n + 1, habove, ?_, fun h => nomatch h⟩⟩
      rw [blacken_join]
      exact balanced_join_black.mpr ⟨hbal, hw⟩
  · rw [if_neg hnephews]
    obtain ⟨c', a, z, b, hw, ha, hb⟩ := redFar_eq (s := s) (x := y) hnear hfar hnephews
    rw [hw]
    simp only [Option.bind_some, view_join, rotate_join]
    have hleft : Balanced (join s .black t x a) (n + 1) := balanced_join_black.mpr ⟨hbal, ha⟩
    have hsound : Sound (zip path (join s c (join s .black t x a) z b.blacken)) := by
      rw [sound_zip_iff]
      cases hhole with
      | black _ habove =>
        refine ⟨n + 2, habove, balanced_join_black.mpr ⟨hleft, hb⟩, ?_⟩
        cases path with
        | nil => exact isRed_join _ _ _ _ _
        | cons => exact fun _ => isRed_join _ _ _ _ _
      | red _ _ habove =>
        refine ⟨n + 1, habove, balanced_join_red.mpr ⟨hleft, hb, ?_, isRed_blacken b⟩, fun h => nomatch h⟩
        exact isRed_join _ _ _ _ _
    exact .inl ⟨_, rfl, by rwa [hsound.blacken_eq]⟩

theorem deleteFix_sound {fuel : ℕ} (hhole : Hole path (n + 1)) (hbal : Balanced t n) (hfuel : path.length < fuel) :
    ∃ t', deleteFix fuel path t = some t' ∧ Sound t' := by
  induction fuel generalizing path t n with
  | zero => cases hfuel
  | succ fuel ih =>
    cases path with
    | nil => exact ⟨_, rfl, hbal.sound_blacken⟩
    | cons p path =>
      rw [deleteFix]
      rw [List.length_cons] at hfuel
      by_cases hred : t.isRed = true
      · rw [if_pos hred]
        exact ⟨_, rfl, sound_zip_iff.mpr ⟨n + 1, hhole, hbal.blacken_red hred, fun _ => isRed_blacken t⟩⟩
      · rw [if_neg hred]
        by_cases hsibling : p.sibling.isRed = true
        · rw [if_pos hsibling]
          obtain ⟨near, y, far, heq⟩ := exists_of_isRed p.side hsibling
          cases hhole with
          | red _ hsb => exact absurd hsibling (by simp [hsb])
          | @black s x _ _ _ hb habove =>
            dsimp only at heq
            subst heq
            obtain ⟨hnear, hfar, hnb, hfb⟩ := balanced_join_red.mp hb
            simp only [view_join, Option.bind_some]
            have hhole' : Hole (⟨s, .red, x, near⟩ :: ⟨s, .black, y, far⟩ :: path) (n + 1) :=
              .red hnear hnb (.black hfar habove)
            rcases deleteTurn_sound hhole' hnb hbal with ⟨whole, hturn, hsound⟩ | ⟨t', hturn, h⟩
            · exact ⟨whole, by rw [hturn]; rfl, hsound⟩
            · obtain ⟨hred', hsound⟩ := h.resolve_right fun h => nomatch h.1
              obtain ⟨fuel, rfl⟩ : ∃ k, fuel = k + 1 := ⟨fuel - 1, by omega⟩
              refine ⟨_, ?_, hsound⟩
              rw [hturn, Option.bind_some, Sum.elim_inr, deleteFix, if_pos hred']
        · rw [if_neg hsibling]
          rw [Bool.not_eq_true] at hsibling
          rcases deleteTurn_sound hhole hsibling hbal with ⟨whole, hturn, hsound⟩ | ⟨t', hturn, h⟩
          · exact ⟨whole, by rw [hturn]; rfl, hsound⟩
          · rw [hturn, Option.bind_some, Sum.elim_inr]
            rcases h with ⟨hred', hsound⟩ | ⟨-, habove, hbal'⟩
            · cases path with
              | nil => exact ⟨_, by rw [deleteFix]; rfl, hsound⟩
              | cons q path =>
                obtain ⟨fuel, rfl⟩ : ∃ k, fuel = k + 1 := ⟨fuel - 1, by omega⟩
                exact ⟨_, by rw [deleteFix, if_pos hred'], hsound⟩
            · exact ih habove hbal' (by omega)

theorem detach_sound {c : Color} {temp : Tree α} (hsound : Sound (zip path (join s c nil x temp))) :
    ∃ t', detach c path temp = some t' ∧ Sound t' := by
  obtain ⟨n, hhole, hbal, hacc⟩ := sound_zip_iff.mp hsound
  have htemp : ∃ m, Balanced temp m ∧ (c = .red → m = n ∧ temp.isRed = false) ∧ (c = .black → m + 1 = n) := by
    cases c with
    | red =>
      obtain ⟨-, htemp, -, hb⟩ := balanced_join_red.mp hbal
      exact ⟨n, htemp, fun _ => ⟨rfl, hb⟩, nofun⟩
    | black =>
      cases n with
      | zero => cases s <;> cases hbal
      | succ n => exact ⟨n, (balanced_join_black.mp hbal).2, nofun, fun _ => rfl⟩
  obtain ⟨m, htemp, hred, hblack⟩ := htemp
  cases path with
  | nil => exact ⟨_, rfl, htemp.sound_blacken⟩
  | cons p path =>
    rw [detach]
    cases c with
    | red =>
      obtain ⟨rfl, hb⟩ := hred rfl
      exact ⟨_, if_pos rfl, sound_zip_iff.mpr ⟨m, hhole, htemp, fun _ => hb⟩⟩
    | black =>
      obtain rfl := hblack rfl
      rw [if_neg (by decide)]
      exact deleteFix_sound hhole htemp (by simp)

/-! ## Insertion, deletion and search -/

theorem insert_spec (side : α → Option Side) (x : α) (hsound : Sound t) {R : α → α → Prop}
    (htrans : ∀ a b c, R a b → R b c → R a c) (hleft : ∀ y ∈ t.toList, side y = some .left → R x y)
    (hright : ∀ y ∈ t.toList, side y = some .right → R y x) (hfound : ∀ y ∈ t.toList, side y ≠ none)
    (hsorted : t.toList.Pairwise R) :
    ∃ t' b a, t.insert side x = some t' ∧ Sound t' ∧ t.toList = b ++ a ∧ t'.toList = b ++ x :: a ∧
      t'.toList.Pairwise R := by
  obtain ⟨b, a, path, hpath, hlist, hzip, hb, ha⟩ := descend_ordered [] htrans hleft hright hfound hsorted
  rw [List.append_nil] at hpath
  have hplace : Sound (zip path nil) := by
    rw [zip_of_descend hpath]
    exact hsound
  obtain ⟨n, hhole, hnil, -⟩ := sound_zip_iff.mp hplace
  cases hnil
  obtain ⟨t', hinsert, hsound'⟩ := insertFix_sound (t := node .red nil x nil) hhole (.red .nil .nil rfl rfl) rfl
  have hlist' : t'.toList = b ++ x :: a := by
    rw [toList_insertFix hinsert, hzip]
    simp [toList]
  refine ⟨t', b, a, ?_, hsound', hlist, hlist', ?_⟩
  · rw [Tree.insert, hpath]
    exact hinsert
  · rw [hlist] at hsorted
    rw [hlist', List.pairwise_append, List.pairwise_cons]
    obtain ⟨hsb, hsa, hba⟩ := List.pairwise_append.mp hsorted
    refine ⟨hsb, ⟨ha, hsa⟩, fun y hy z hz => ?_⟩
    rcases List.mem_cons.mp hz with rfl | hz
    · exact hb y hy
    · exact hba y hy z hz

theorem delete_spec [DecidableEq α] (hsound : Sound t) (hx : x ∈ t.toList) :
    ∃ t' b a, t.delete x = some t' ∧ Sound t' ∧ t.toList = b ++ x :: a ∧ t'.toList = b ++ a := by
  obtain ⟨⟨path, c, l, r⟩, hplace⟩ := Option.isSome_iff_exists.mp (locate_isSome hx [])
  have hzip : zip path (node c l x r) = t := zip_of_locate hplace
  obtain ⟨b, a, haround⟩ := toList_zip path
  suffices hdetach : ∃ t', t.delete x = some t' ∧ Sound t' ∧ t'.toList = b ++ (l.toList ++ r.toList) ++ a by
    obtain ⟨t', hdelete, hsound', hlist'⟩ := hdetach
    refine ⟨t', b ++ l.toList, r.toList ++ a, hdelete, hsound', ?_, ?_⟩
    · rw [← hzip, haround, toList]
      simp
    · rw [hlist']
      simp
  rw [← hzip] at hsound
  rw [Tree.delete, hplace, Option.bind_some]
  cases l with
  | nil =>
    obtain ⟨t', hdetach, hsound'⟩ := detach_sound (s := .left) hsound
    exact ⟨t', hdetach, hsound', by rw [toList_detach hdetach, haround]; rfl⟩
  | node cl ll xl rl =>
    cases r with
    | nil =>
      obtain ⟨t', hdetach, hsound'⟩ := detach_sound (s := .right) hsound
      exact ⟨t', hdetach, hsound', by rw [toList_detach hdetach, haround]; simp [toList]⟩
    | node cr lr xr rr =>
      obtain ⟨⟨below, c', y, temp⟩, hleftmost⟩ :=
        Option.isSome_iff_exists.mp (leftmost_isSome (t := node cr lr xr rr) nofun [])
      obtain ⟨below', hbelow, hr, hlist⟩ := leftmost_eq hleftmost
      rw [List.append_nil] at hbelow
      subst hbelow
      -- `y` at the place of `x` leaves the balance as it was.
      have hsound' : Sound (zip (below ++ ⟨.right, c, y, node cl ll xl rl⟩ :: path) (join .left c' nil y temp)) := by
        rw [zip_append, join, hr]
        exact hsound.relabel y
      obtain ⟨t', hdetach, hsound''⟩ := detach_sound hsound'
      refine ⟨t', ?_, hsound'', ?_⟩
      · show ((leftmost (node cr lr xr rr) []).bind _) = _
        rw [hleftmost]
        exact hdetach
      · rw [toList_detach hdetach, zip_append, zip, haround, Frame.fill, join, toList, hlist]

theorem delete_eq_none [DecidableEq α] (hx : x ∉ t.toList) : t.delete x = none := by
  cases hplace : locate x t [] with
  | none => rw [Tree.delete, hplace, Option.bind_none]
  | some place =>
    obtain ⟨path, c, l, r⟩ := place
    obtain ⟨b, a, haround⟩ := toList_zip path
    refine absurd ?_ hx
    have hzip : zip path (node c l x r) = t := zip_of_locate hplace
    rw [← hzip, haround, toList]
    simp

theorem mem_of_lookup {side : α → Option Side} {y : α} (h : t.lookup side = some y) :
    y ∈ t.toList ∧ side y = none := by
  fun_induction Tree.lookup side t with
  | case1 => cases h
  | case2 c l z r hside =>
    cases h
    exact ⟨by simp [toList], hside⟩
  | case3 c l z r hside ih => exact ⟨by simp [toList, (ih h).1], (ih h).2⟩
  | case4 c l z r hside ih => exact ⟨by simp [toList, (ih h).1], (ih h).2⟩

theorem lookup_of_mem {R : α → α → Prop} (hsorted : t.toList.Pairwise R) {side : α → Option Side} {y : α}
    (hy : y ∈ t.toList) (hside : side y = none) (hbefore : ∀ z, R z y → side z = some .right)
    (hafter : ∀ z, R y z → side z = some .left) : t.lookup side = some y := by
  induction t with
  | nil => cases hy
  | node c l z r ihl ihr =>
    rw [toList, List.pairwise_append, List.pairwise_cons] at hsorted
    obtain ⟨hl, ⟨hzr, hr⟩, hlr⟩ := hsorted
    rw [toList, List.mem_append, List.mem_cons] at hy
    rw [Tree.lookup]
    rcases hy with hy | rfl | hy
    · rw [hafter z (hlr y hy z List.mem_cons_self)]
      exact ihl hl hy
    · rw [hside]
    · rw [hbefore z (hzr y hy)]
      exact ihr hr hy

end Balance

end Tefs.RedBlack

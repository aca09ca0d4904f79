import Mathlib.Data.List.Basic
import Mathlib.Data.List.Induction
import Mathlib.Logic.Function.Iterate
import Mathlib.Tactic.Common

/-!
# Paths in a tree with symbolic links

A path is a list of components, taken one after the other from a node on. What a
link's target says is a parameter; it is followed before what stands behind the
link. Only directories have children and can be passed.
-/

namespace LibcOverride.PathTree

inductive Kind (Target : Type) where
  | dir
  | file
  | link (target : Target)
  deriving Repr, DecidableEq

def Kind.isLink {Target : Type} : Kind Target → Bool
  | .link _ => true
  | _ => false

inductive Component (Name : Type) where
  | here
  | up
  | name (name : Name)
  deriving Repr, DecidableEq

/-- Where a path starts, and its components. -/
structure Route (Name : Type) where
  absolute : Bool
  components : List (Component Name)

structure Tree (Node Name Target : Type) where
  kind : Node → Kind Target
  root : Node
  parent : Node → Node
  child : Node → Name → Option Node
  root_dir : kind root = .dir
  parent_root : parent root = root
  child_dir : ∀ {d n : Node} {x : Name}, child d x = some n → kind d = .dir
  child_parent : ∀ {d n : Node} {x : Name}, child d x = some n → kind n = .dir → parent n = d

variable {Node Name Target : Type} (t : Tree Node Name Target)
  (route : Target → Option (Route Name))

def Tree.start (n : Node) (absolute : Bool) : Node := if absolute then t.root else n

/-- The node that a path reaches, with all links followed. -/
inductive Tree.Resolves : Node → List (Component Name) → Node → Prop
  | nil (n : Node) : Resolves n [] n
  | here {n m : Node} {cs : List (Component Name)} (hn : t.kind n = .dir)
      (h : Resolves n cs m) : Resolves n (.here :: cs) m
  | up {n m : Node} {cs : List (Component Name)} (hn : t.kind n = .dir)
      (h : Resolves (t.parent n) cs m) : Resolves n (.up :: cs) m
  | name {n m c : Node} {x : Name} {cs : List (Component Name)} (hx : t.child n x = some c)
      (hc : (t.kind c).isLink = false) (h : Resolves c cs m) : Resolves n (.name x :: cs) m
  | link {n m c : Node} {x : Name} {target : Target} {r : Route Name}
      {cs : List (Component Name)} (hx : t.child n x = some c) (hc : t.kind c = .link target)
      (hr : route target = some r)
      (h : Resolves (t.start n r.absolute) (r.components ++ cs) m) : Resolves n (.name x :: cs) m

/-- The node that a path reaches where a last name is not followed. -/
inductive Tree.Finds (n : Node) : List (Component Name) → Node → Prop
  | last {d m : Node} {x : Name} {cs : List (Component Name)} (h : t.Resolves route n cs d)
      (hx : t.child d x = some m) : Finds n (cs ++ [.name x]) m
  | whole {m : Node} {cs : List (Component Name)} (h : t.Resolves route n cs m)
      (hlast : ∀ x, cs.getLast? ≠ some (.name x)) : Finds n cs m

variable {t route} {n m c : Node} {x : Name} {cs xs : List (Component Name)}

/-! ### One component -/

theorem resolves_nil : t.Resolves route n [] m ↔ m = n := by
  constructor
  · intro h
    cases h
    rfl
  · rintro rfl
    exact .nil _

theorem resolves_here :
    t.Resolves route n (.here :: cs) m ↔ t.kind n = .dir ∧ t.Resolves route n cs m := by
  constructor
  · intro h
    cases h with
    | here hn h => exact ⟨hn, h⟩
  · intro h
    exact .here h.1 h.2

theorem resolves_up :
    t.Resolves route n (.up :: cs) m ↔ t.kind n = .dir ∧ t.Resolves route (t.parent n) cs m := by
  constructor
  · intro h
    cases h with
    | up hn h => exact ⟨hn, h⟩
  · intro h
    exact .up h.1 h.2

theorem resolves_child (h : t.Resolves route n (.name x :: cs) m) : ∃ c, t.child n x = some c := by
  cases h with
  | name hx hc h => exact ⟨_, hx⟩
  | link hx hc hr h => exact ⟨_, hx⟩

theorem resolves_name (hx : t.child n x = some c) (hc : (t.kind c).isLink = false) :
    t.Resolves route n (.name x :: cs) m ↔ t.Resolves route c cs m := by
  constructor
  · intro h
    cases h with
    | name hx' hc' h =>
      obtain rfl := Option.some.inj (hx.symm.trans hx')
      exact h
    | link hx' hc' hr h =>
      obtain rfl := Option.some.inj (hx.symm.trans hx')
      rw [hc'] at hc
      cases hc
  · exact .name hx hc

theorem resolves_link {target : Target} (hx : t.child n x = some c)
    (hc : t.kind c = .link target) : t.Resolves route n (.name x :: cs) m ↔
      ∃ r, route target = some r ∧
        t.Resolves route (t.start n r.absolute) (r.components ++ cs) m := by
  constructor
  · intro h
    cases h with
    | name hx' hc' h =>
      obtain rfl := Option.some.inj (hx.symm.trans hx')
      rw [hc] at hc'
      cases hc'
    | link hx' hc' hr h =>
      obtain rfl := Option.some.inj (hx.symm.trans hx')
      rw [hc] at hc'
      cases hc'
      exact ⟨_, hr, h⟩
  · rintro ⟨r, hr, h⟩
    exact .link hx hc hr h

/-- Only a directory is passed. -/
theorem resolves_dir (hcs : cs ≠ []) (h : t.Resolves route n cs m) : t.kind n = .dir := by
  cases h with
  | nil => exact (hcs rfl).elim
  | here hn h => exact hn
  | up hn h => exact hn
  | name hx hc h => exact t.child_dir hx
  | link hx hc hr h => exact t.child_dir hx

/-- The directory itself is no step before more components. -/
theorem resolves_here_cons (hcs : cs ≠ []) :
    t.Resolves route n (.here :: cs) m ↔ t.Resolves route n cs m := by
  rw [resolves_here]
  exact and_iff_right_of_imp (resolves_dir hcs)

/-! ### Paths one after the other -/

theorem resolves_append : t.Resolves route n (xs ++ cs) m ↔
    ∃ k, t.Resolves route n xs k ∧ t.Resolves route k cs m := by
  constructor
  · intro h
    generalize hys : xs ++ cs = ys at h
    induction h generalizing xs with
    | nil n =>
      obtain ⟨rfl, rfl⟩ := List.append_eq_nil_iff.mp hys
      exact ⟨n, .nil n, .nil n⟩
    | @here n m ys hn h ih =>
      cases xs with
      | nil =>
        obtain rfl : cs = _ := hys
        exact ⟨n, .nil n, .here hn h⟩
      | cons x xs =>
        obtain ⟨rfl, htail⟩ := List.cons.inj hys
        obtain ⟨k, hk, hm⟩ := ih htail
        exact ⟨k, .here hn hk, hm⟩
    | @up n m ys hn h ih =>
      cases xs with
      | nil =>
        obtain rfl : cs = _ := hys
        exact ⟨n, .nil n, .up hn h⟩
      | cons x xs =>
        obtain ⟨rfl, htail⟩ := List.cons.inj hys
        obtain ⟨k, hk, hm⟩ := ih htail
        exact ⟨k, .up hn hk, hm⟩
    | @name n m c y ys hx hc h ih =>
      cases xs with
      | nil =>
        obtain rfl : cs = _ := hys
        exact ⟨n, .nil n, .name hx hc h⟩
      | cons x xs =>
        obtain ⟨rfl, htail⟩ := List.cons.inj hys
        obtain ⟨k, hk, hm⟩ := ih htail
        exact ⟨k, .name hx hc hk, hm⟩
    | @link n m c y target r ys hx hc hr h ih =>
      cases xs with
      | nil =>
        obtain rfl : cs = _ := hys
        exact ⟨n, .nil n, .link hx hc hr h⟩
      | cons x xs =>
        obtain ⟨rfl, htail⟩ := List.cons.inj hys
        have hjoin : (r.components ++ xs) ++ cs = r.components ++ ys :=
          (List.append_assoc _ _ _).trans (congrArg (r.components ++ ·) htail)
        obtain ⟨k, hk, hm⟩ := ih hjoin
        exact ⟨k, .link hx hc hr hk, hm⟩
  · rintro ⟨k, hk, hm⟩
    induction hk with
    | nil n => exact hm
    | here hn h ih => exact .here hn (ih hm)
    | up hn h ih => exact .up hn (ih hm)
    | name hx hc h ih => exact .name hx hc (ih hm)
    | link hx hc hr h ih =>
      have hrest := ih hm
      rw [List.append_assoc] at hrest
      exact .link hx hc hr hrest

theorem resolves_first {y : Component Name} (h : t.Resolves route n (y :: cs) m) :
    ∃ k, t.Resolves route n [y] k := by
  have hsplit : t.Resolves route n ([y] ++ cs) m := h
  obtain ⟨k, hk, _⟩ := resolves_append.mp hsplit
  exact ⟨k, hk⟩

/-! ### Names only -/

/-- The node below `n` that the names lead to, where links are not followed. -/
def Tree.walk (t : Tree Node Name Target) (n : Node) (names : List Name) : Option Node :=
  names.foldlM t.child n

theorem walk_cons (y : Name) (ys : List Name) :
    t.walk n (y :: ys) = (t.child n y).bind fun c => t.walk c ys := List.foldlM_cons

theorem walk_append (ys zs : List Name) :
    t.walk n (ys ++ zs) = (t.walk n ys).bind fun c => t.walk c zs := List.foldlM_append

theorem walk_snoc (ys : List Name) :
    t.walk n (ys ++ [x]) = (t.walk n ys).bind fun c => t.child c x := by
  rw [walk_append]
  refine congrArg _ (funext fun c => ?_)
  rw [walk_cons]
  exact Option.bind_fun_some _

/-- What has a child is no link. -/
theorem isLink_parent {d : Node} (hx : t.child d x = some n) : (t.kind d).isLink = false := by
  rw [t.child_dir hx]
  rfl

/-- Only the last node of a walk can be a link. -/
theorem walk_notLink {ys zs : List Name} (hpre : ys <+: zs) (hz : t.walk n zs = some m)
    (hm : (t.kind m).isLink = false) :
    ∃ c, t.walk n ys = some c ∧ (t.kind c).isLink = false := by
  obtain ⟨rest, rfl⟩ := hpre
  rw [walk_append, Option.bind_eq_some_iff] at hz
  obtain ⟨c, hc, hrest⟩ := hz
  refine ⟨c, hc, ?_⟩
  cases rest with
  | nil =>
    obtain rfl := Option.some.inj hrest
    exact hm
  | cons y rest =>
    rw [walk_cons, Option.bind_eq_some_iff] at hrest
    obtain ⟨d, hd, _⟩ := hrest
    exact isLink_parent hd

theorem resolves_walk {ys : List Name} (hy : t.walk n ys = some c)
    (hc : (t.kind c).isLink = false) :
    t.Resolves route n (ys.map .name ++ cs) m ↔ t.Resolves route c cs m := by
  induction ys generalizing n with
  | nil =>
    obtain rfl := Option.some.inj hy
    rfl
  | cons y ys ih =>
    have hwalk := hy
    rw [walk_cons, Option.bind_eq_some_iff] at hwalk
    obtain ⟨d, hd, hrest⟩ := hwalk
    have hlink : (t.kind d).isLink = false := by
      have hpre : [y] <+: y :: ys := ⟨ys, rfl⟩
      obtain ⟨d', hd', hlink⟩ := walk_notLink hpre hy hc
      rw [walk_cons, hd] at hd'
      obtain rfl := Option.some.inj hd'
      exact hlink
    rw [List.map_cons, List.cons_append, resolves_name hd hlink]
    exact ih hrest

theorem walk_parent {ys : List Name} (h : ys = [] → t.parent n = n) (hy : t.walk n ys = some c)
    (hc : t.kind c = .dir) :
    t.walk n ys.dropLast = some (t.parent c) ∧ t.kind (t.parent c) = .dir := by
  rcases List.eq_nil_or_concat' ys with hnil | ⟨zs, x, rfl⟩
  · subst hnil
    obtain rfl := Option.some.inj hy
    rw [h rfl]
    exact ⟨rfl, hc⟩
  · rw [walk_snoc, Option.bind_eq_some_iff] at hy
    obtain ⟨d, hd, hx⟩ := hy
    rw [List.dropLast_concat, t.child_parent hx hc]
    exact ⟨hd, t.child_dir hx⟩

theorem walk_parents {ys : List Name} (hy : t.walk t.root ys = some c) (hc : t.kind c = .dir)
    (k : ℕ) : t.walk t.root (List.dropLast^[k] ys) = some (t.parent^[k] c) ∧
      t.kind (t.parent^[k] c) = .dir := by
  induction k with
  | zero => exact ⟨hy, hc⟩
  | succ k ih =>
    rw [Function.iterate_succ_apply', Function.iterate_succ_apply']
    exact walk_parent (fun _ => t.parent_root) ih.1 ih.2

/-- A directory has one name where it is, and the root is in no directory. -/
structure Tree.Proper (t : Tree Node Name Target) : Prop where
  root : ∀ d x, t.child d x ≠ some t.root
  directory : ∀ d x y n, t.child d x = some n → t.child d y = some n → t.kind n = .dir → x = y

/-- Then one way leads to a directory. -/
theorem walk_unique (hp : t.Proper) {ys zs : List Name} (hy : t.walk t.root ys = some n)
    (hz : t.walk t.root zs = some n) (hn : t.kind n = .dir) : ys = zs := by
  induction ys using List.reverseRecOn generalizing zs n with
  | nil =>
    obtain rfl := Option.some.inj hy
    rcases List.eq_nil_or_concat' zs with hnil | ⟨zs, z, rfl⟩
    · exact hnil.symm
    · rw [walk_snoc, Option.bind_eq_some_iff] at hz
      obtain ⟨d, _, hd⟩ := hz
      exact (hp.root d z hd).elim
  | append_singleton ys y ih =>
    rw [walk_snoc, Option.bind_eq_some_iff] at hy
    obtain ⟨d, hd, hchild⟩ := hy
    rcases List.eq_nil_or_concat' zs with hnil | ⟨zs, z, rfl⟩
    · subst hnil
      obtain rfl := Option.some.inj hz
      exact (hp.root d y hchild).elim
    · rw [walk_snoc, Option.bind_eq_some_iff] at hz
      obtain ⟨d', hd', hchild'⟩ := hz
      obtain rfl : d = d' := (t.child_parent hchild hn).symm.trans (t.child_parent hchild' hn)
      rw [ih hd hd' (t.child_dir hchild), hp.directory d y z n hchild hchild' hn]

/-! ### A last component that is not followed -/

theorem finds_name : t.Finds route n (cs ++ [.name x]) m ↔
    ∃ d, t.Resolves route n cs d ∧ t.child d x = some m := by
  constructor
  · intro h
    generalize hys : cs ++ [.name x] = ys at h
    cases h with
    | @last d m y zs h hy =>
      obtain ⟨rfl, hlast⟩ := List.append_inj' hys rfl
      cases hlast
      exact ⟨d, h, hy⟩
    | whole h hlast =>
      refine (hlast x ?_).elim
      rw [← hys, List.getLast?_concat]
  · rintro ⟨d, hd, hx⟩
    exact .last hd hx

theorem finds_other {y : Component Name} (hy : ∀ x, y ≠ .name x) :
    t.Finds route n (cs ++ [y]) m ↔ t.Resolves route n (cs ++ [y]) m := by
  constructor
  · intro h
    generalize hys : cs ++ [y] = ys at h
    cases h with
    | @last d m x zs h hx =>
      obtain ⟨_, hlast⟩ := List.append_inj' hys rfl
      cases hlast
      exact (hy x rfl).elim
    | whole h hlast => exact h
  · intro h
    refine .whole h fun x => ?_
    rw [List.getLast?_concat]
    exact fun heq => hy x (Option.some.inj heq)

end LibcOverride.PathTree

import Chaaya.Mapping.Search

/-! Red-black trees. An insertion keeps the colours; a deletion does where it takes a red node
out, or the root. -/

namespace Chaaya.Mapping

open AssocList

variable {κ β : Type} {cmp : Comparator κ}

/-- No red node has a red child. -/
def NoRed : Tree κ β → Prop
  | .empty => True
  | .node c l _ _ r =>
    (c = .red → l.isRed = false ∧ r.isRed = false) ∧ NoRed l ∧ NoRed r

/-- No red node has a red child, but the root may. -/
def Weak : Tree κ β → Prop
  | .empty => True
  | .node _ l _ _ r => NoRed l ∧ NoRed r

def Colour.blacks : Colour → Nat
  | red => 0
  | black => 1

/-- The numbers of black nodes on the paths to the empty trees. -/
def paths : Tree κ β → List Nat
  | .empty => [0]
  | .node c l _ _ r => (paths l ++ paths r).map (· + c.blacks)

structure RedBlack (t : Tree κ β) : Prop where
  root : t.isRed = false
  noRed : NoRed t
  uniform : ∃ n, ∀ d ∈ paths t, d = n

/-! ### Rotations -/

theorem paths_balance (c : Colour) (l : Tree κ β) (k : κ) (v : β) (r : Tree κ β) :
    paths (balance c l k v r) = paths (.node c l k v r) := by
  rw [balance.eq_def]
  split <;> simp [paths, Colour.blacks, Function.comp_def]

theorem balance_of_noRed (c : Colour) {l : Tree κ β} (k : κ) (v : β) {r : Tree κ β} (left : NoRed l)
    (right : NoRed r) : balance c l k v r = .node c l k v r := by
  rw [balance.eq_def]
  split
  · cases (left.1 rfl).1
  · cases (left.1 rfl).2
  · cases (right.1 rfl).1
  · cases (right.1 rfl).2
  · rfl

theorem weak_of_noRed {t : Tree κ β} (noRed : NoRed t) : Weak t := by
  cases t with
  | empty => trivial
  | node c l k v r => exact noRed.2

theorem noRed_blacken {t : Tree κ β} (weak : Weak t) : NoRed (blacken t) := by
  cases t with
  | empty => trivial
  | node c l k v r => exact ⟨nofun, weak⟩

theorem isRed_iff {t : Tree κ β} : t.isRed = true ↔ ∃ l k v r, t = .node .red l k v r := by
  cases t with
  | empty => exact ⟨nofun, nofun⟩
  | node c l k v r =>
    cases c with
    | red => exact ⟨fun _ => ⟨l, k, v, r, rfl⟩, fun _ => rfl⟩
    | black => exact ⟨nofun, nofun⟩

theorem noRed_of_shape {t : Tree κ β} (weak : Weak t)
    (left : ∀ ll lk lv lr k v r, t ≠ .node .red (.node .red ll lk lv lr) k v r)
    (right : ∀ l k v rl rk rv rr, t ≠ .node .red l k v (.node .red rl rk rv rr)) : NoRed t := by
  cases t with
  | empty => trivial
  | node c l k v r =>
    refine ⟨fun red => ⟨Bool.eq_false_iff.mpr fun isRed => ?_, Bool.eq_false_iff.mpr fun isRed => ?_⟩,
      weak⟩
    · obtain ⟨ll, lk, lv, lr, rfl⟩ := isRed_iff.mp isRed
      exact left ll lk lv lr k v r (by rw [red])
    · obtain ⟨rl, rk, rv, rr, rfl⟩ := isRed_iff.mp isRed
      exact right l k v rl rk rv rr (by rw [red])

theorem noRed_balance_left {l : Tree κ β} (k : κ) (v : β) {r : Tree κ β} (left : Weak l)
    (right : NoRed r) : NoRed (balance .black l k v r) := by
  rw [balance.eq_def]
  split
  · exact ⟨fun _ => ⟨rfl, rfl⟩, ⟨by rintro ⟨⟩, left.1.2⟩, by rintro ⟨⟩, left.2, right⟩
  · exact ⟨fun _ => ⟨rfl, rfl⟩, ⟨by rintro ⟨⟩, left.1, left.2.2.1⟩, by rintro ⟨⟩, left.2.2.2, right⟩
  · cases (right.1 rfl).1
  · cases (right.1 rfl).2
  · rename_i first second _ _
    exact ⟨by rintro ⟨⟩, noRed_of_shape left (fun _ _ _ _ _ _ _ => first _ _ _ _ _ _ _ rfl)
      (fun _ _ _ _ _ _ _ => second _ _ _ _ _ _ _ rfl), right⟩

theorem noRed_balance_right {l : Tree κ β} (k : κ) (v : β) {r : Tree κ β} (left : NoRed l)
    (right : Weak r) : NoRed (balance .black l k v r) := by
  rw [balance.eq_def]
  split
  · cases (left.1 rfl).1
  · cases (left.1 rfl).2
  · exact ⟨fun _ => ⟨rfl, rfl⟩, ⟨by rintro ⟨⟩, left, right.1.2.1⟩, by rintro ⟨⟩, right.1.2.2, right.2⟩
  · exact ⟨fun _ => ⟨rfl, rfl⟩, ⟨by rintro ⟨⟩, left, right.1⟩, by rintro ⟨⟩, right.2.2⟩
  · rename_i third fourth
    exact ⟨by rintro ⟨⟩, left, noRed_of_shape right (fun _ _ _ _ _ _ _ => third _ _ _ _ _ _ _ rfl)
      (fun _ _ _ _ _ _ _ => fourth _ _ _ _ _ _ _ rfl)⟩

/-! ### Insertion -/

theorem insWith_weak {t : Tree κ β} (noRed : NoRed t) (key : κ) (val : β) (again : κ × β → κ × β) :
    Weak (insWith cmp key val again t) ∧
      (t.isRed = false → NoRed (insWith cmp key val again t)) := by
  induction t with
  | empty => exact ⟨⟨trivial, trivial⟩, fun _ => ⟨fun _ => ⟨rfl, rfl⟩, trivial, trivial⟩⟩
  | node c l k v r ihl ihr =>
    obtain ⟨children, left, right⟩ := noRed
    rw [insWith]
    split
    · exact ⟨⟨left, right⟩, fun _ => ⟨children, left, right⟩⟩
    · cases c with
      | black =>
        have black : NoRed (if cmp.lt key k then balance .black (insWith cmp key val again l) k v r
            else balance .black l k v (insWith cmp key val again r)) := by
          split
          · exact noRed_balance_left k v (ihl left).1 right
          · exact noRed_balance_right k v left (ihr right).1
        exact ⟨weak_of_noRed black, fun _ => black⟩
      | red =>
        obtain ⟨leftBlack, rightBlack⟩ := children rfl
        refine ⟨?_, by rintro ⟨⟩⟩
        split
        · exact ⟨(ihl left).2 leftBlack, right⟩
        · exact ⟨left, (ihr right).2 rightBlack⟩

theorem mem_paths_node {c : Colour} {l : Tree κ β} {k : κ} {v : β} {r : Tree κ β} {d : Nat} :
    d ∈ paths (.node c l k v r) ↔ ∃ e, (e ∈ paths l ∨ e ∈ paths r) ∧ e + c.blacks = d := by
  rw [paths, List.mem_map]
  exact exists_congr fun e => and_congr_left' List.mem_append

theorem mem_paths_insWith (t : Tree κ β) (key : κ) (val : β) (again : κ × β → κ × β) (d : Nat) :
    d ∈ paths (insWith cmp key val again t) ↔ d ∈ paths t := by
  induction t generalizing d with
  | empty => simp [insWith, paths, Colour.blacks]
  | node c l k v r ihl ihr =>
    rw [insWith]
    split
    · rw [mem_paths_node, mem_paths_node]
    · split
      · rw [paths_balance, mem_paths_node, mem_paths_node]
        exact exists_congr fun e => by rw [ihl]
      · rw [paths_balance, mem_paths_node, mem_paths_node]
        exact exists_congr fun e => by rw [ihr]

theorem uniform_blacken {t : Tree κ β} (uniform : ∃ n, ∀ d ∈ paths t, d = n) :
    ∃ n, ∀ d ∈ paths (blacken t), d = n := by
  cases t with
  | empty => exact uniform
  | node c l k v r =>
    obtain ⟨n, same⟩ := uniform
    refine ⟨n - c.blacks + 1, fun d mem => ?_⟩
    obtain ⟨e, here, rfl⟩ := mem_paths_node.mp mem
    have := same (e + c.blacks) (mem_paths_node.mpr ⟨e, here, rfl⟩)
    rw [Colour.blacks]
    omega

theorem root_blacken (t : Tree κ β) : (blacken t).isRed = false := by
  cases t with
  | empty => rfl
  | node c l k v r => rfl

theorem RedBlack.insWith {t : Tree κ β} (redBlack : RedBlack t) (key : κ) (val : β)
    (again : κ × β → κ × β) : RedBlack (blacken (insWith cmp key val again t)) where
  root := root_blacken _
  noRed := noRed_blacken (insWith_weak redBlack.noRed key val again).1
  uniform := by
    obtain ⟨n, same⟩ := redBlack.uniform
    exact uniform_blacken ⟨n, fun d mem => same d ((mem_paths_insWith t key val again d).mp mem)⟩

theorem RedBlack.empty : RedBlack (.empty : Tree κ β) where
  root := rfl
  noRed := trivial
  uniform := ⟨0, fun _ mem => List.mem_singleton.mp mem⟩

/-! ### Deletion -/

/-- The colour of the first node of a tree with this root colour and left part. -/
def minColour : Colour → Tree κ β → Colour
  | c, .empty => c
  | _, .node c l _ _ _ => minColour c l

/-- The colour of the node that a deletion takes out. -/
def victim (cmp : Comparator κ) (key : κ) : Tree κ β → Option Colour
  | .empty => none
  | .node c l k _ r =>
    if cmp.eq key k then
      match r with
      | .empty => some c
      | .node rc rl _ _ _ => some (minColour rc rl)
    else if cmp.lt key k then victim cmp key l
    else victim cmp key r

/-- The key is that of the root, and nothing is on the right of it. -/
def rootAlone (cmp : Comparator κ) (key : κ) : Tree κ β → Bool
  | .node _ _ k _ .empty => cmp.eq key k
  | _ => false

/-- The deletion takes out no node, a red node, or the root. -/
def harmless (cmp : Comparator κ) (key : κ) (t : Tree κ β) : Bool :=
  victim cmp key t != some .black || rootAlone cmp key t

theorem paths_ne_nil (t : Tree κ β) : ∃ d, d ∈ paths t := by
  induction t with
  | empty => exact ⟨0, List.mem_singleton.mpr rfl⟩
  | node c l k v r ihl ihr =>
    obtain ⟨d, mem⟩ := ihl
    exact ⟨d + c.blacks, mem_paths_node.mpr ⟨d, .inl mem, rfl⟩⟩

/-- All paths of a tree pass `n` black nodes. -/
def Uniform (n : Nat) (t : Tree κ β) : Prop := ∀ d ∈ paths t, d = n

theorem Uniform.node {c : Colour} {l : Tree κ β} {k : κ} {v : β} {r : Tree κ β} {n : Nat}
    (left : Uniform n l) (right : Uniform n r) : Uniform (n + c.blacks) (.node c l k v r) := by
  intro d mem
  obtain ⟨e, here, rfl⟩ := mem_paths_node.mp mem
  rcases here with here | here
  · rw [left e here]
  · rw [right e here]

theorem Uniform.children {c : Colour} {l : Tree κ β} {k : κ} {v : β} {r : Tree κ β} {n : Nat}
    (uniform : Uniform n (.node c l k v r)) :
    ∃ m, n = m + c.blacks ∧ Uniform m l ∧ Uniform m r := by
  have up (e : Nat) (mem : e ∈ paths l ∨ e ∈ paths r) : e + c.blacks = n :=
    uniform _ (mem_paths_node.mpr ⟨e, mem, rfl⟩)
  obtain ⟨m, mem⟩ := paths_ne_nil l
  have eq := up m (.inl mem)
  refine ⟨m, eq.symm, fun d mem => ?_, fun d mem => ?_⟩
  · have := up d (.inl mem)
    omega
  · have := up d (.inr mem)
    omega

theorem Uniform.zero_of_empty {n : Nat} (uniform : Uniform n (.empty : Tree κ β)) : n = 0 :=
  (uniform 0 (List.mem_singleton.mpr rfl)).symm

theorem Uniform.eq_empty {t : Tree κ β} (uniform : Uniform 0 t) (black : t.isRed = false) :
    t = .empty := by
  cases t with
  | empty => rfl
  | node c l k v r =>
    cases c with
    | red => cases black
    | black =>
      obtain ⟨m, eq, -⟩ := uniform.children
      exact absurd eq (by rw [Colour.blacks]; omega)

/-- What a deletion that takes a red node out leaves. -/
structure Kept (n : Nat) (t t' : Tree κ β) : Prop where
  noRed : NoRed t'
  uniform : Uniform n t'
  red : t'.isRed = true → t.isRed = true

theorem red_alone {n : Nat} {l : Tree κ β} {k : κ} {v : β} (noRed : NoRed (.node .red l k v .empty))
    (uniform : Uniform n (.node .red l k v .empty)) : l = .empty ∧ n = 0 := by
  obtain ⟨m, rfl, left, right⟩ := uniform.children
  obtain rfl := right.zero_of_empty
  exact ⟨left.eq_empty (noRed.1 rfl).1, rfl⟩

theorem red_alone_right {n : Nat} {r : Tree κ β} {k : κ} {v : β}
    (noRed : NoRed (.node .red .empty k v r)) (uniform : Uniform n (.node .red .empty k v r)) :
    r = .empty ∧ n = 0 := by
  obtain ⟨m, rfl, left, right⟩ := uniform.children
  obtain rfl := left.zero_of_empty
  exact ⟨right.eq_empty (noRed.1 rfl).2, rfl⟩

theorem Kept.left {c : Colour} {l l' : Tree κ β} {k k' : κ} {v v' : β} {r : Tree κ β} {m : Nat}
    (noRed : NoRed (.node c l k v r)) (right : Uniform m r) (kept : Kept m l l') :
    Kept (m + c.blacks) (.node c l k v r) (balance c l' k' v' r) := by
  rw [balance_of_noRed c k' v' kept.noRed noRed.2.2]
  refine ⟨⟨fun red => ?_, kept.noRed, noRed.2.2⟩, kept.uniform.node right, fun red => red⟩
  obtain ⟨leftBlack, rightBlack⟩ := noRed.1 red
  refine ⟨?_, rightBlack⟩
  cases here : l'.isRed with
  | false => rfl
  | true => exact absurd (kept.red here) (by rw [leftBlack]; exact Bool.false_ne_true)

theorem Kept.right {c : Colour} {l : Tree κ β} {k k' : κ} {v v' : β} {r r' : Tree κ β} {m : Nat}
    (noRed : NoRed (.node c l k v r)) (left : Uniform m l) (kept : Kept m r r') :
    Kept (m + c.blacks) (.node c l k v r) (balance c l k' v' r') := by
  rw [balance_of_noRed c k' v' noRed.2.1 kept.noRed]
  refine ⟨⟨fun red => ?_, noRed.2.1, kept.noRed⟩, left.node kept.uniform, fun red => red⟩
  obtain ⟨leftBlack, rightBlack⟩ := noRed.1 red
  refine ⟨leftBlack, ?_⟩
  cases here : r'.isRed with
  | false => rfl
  | true => exact absurd (kept.red here) (by rw [rightBlack]; exact Bool.false_ne_true)

theorem delMin_node (c lc : Colour) (ll : Tree κ β) (lk : κ) (lv : β) (lr : Tree κ β) (k : κ) (v : β)
    (r : Tree κ β) : delMin (.node c (.node lc ll lk lv lr) k v r) =
      balance c (delMin (.node lc ll lk lv lr)) k v r := by
  rw [delMin]
  rintro ⟨⟩

theorem delMin_kept {c : Colour} {l : Tree κ β} {k : κ} {v : β} {r : Tree κ β} {n : Nat}
    (noRed : NoRed (.node c l k v r)) (uniform : Uniform n (.node c l k v r))
    (red : minColour c l = .red) : Kept n (.node c l k v r) (delMin (.node c l k v r)) := by
  induction l generalizing c k v r n with
  | empty =>
    obtain rfl : c = .red := red
    obtain ⟨rfl, rfl⟩ := red_alone_right noRed uniform
    exact ⟨trivial, fun _ mem => List.mem_singleton.mp mem, nofun⟩
  | node lc ll lk lv lr ihl ihr =>
    obtain ⟨m, rfl, left, right⟩ := uniform.children
    rw [delMin_node]
    exact Kept.left noRed right (ihl noRed.2.1 left red)

theorem del_kept {t : Tree κ β} {key : κ} {n : Nat} (noRed : NoRed t) (uniform : Uniform n t)
    (red : victim cmp key t ≠ some .black) : Kept n t (del cmp key t) := by
  induction t generalizing n with
  | empty => exact ⟨trivial, uniform, id⟩
  | node c l k v r ihl ihr =>
    obtain ⟨m, rfl, left, right⟩ := uniform.children
    rw [victim.eq_def] at red
    rw [del.eq_def]
    dsimp only at red ⊢
    split
    · rename_i same
      rw [if_pos same] at red
      cases r with
      | empty =>
        cases c with
        | red =>
          obtain ⟨rfl, -⟩ := red_alone noRed uniform
          exact ⟨trivial, left, by rintro ⟨⟩⟩
        | black => exact absurd rfl red
      | node rc rl rk rv rr =>
        have minRed : minColour rc rl = .red := by
          cases colour : minColour rc rl with
          | red => rfl
          | black => exact absurd (congrArg some colour) red
        exact Kept.right noRed left (delMin_kept noRed.2.2 right minRed)
    · rename_i differ
      rw [if_neg differ] at red
      split
      · rename_i less
        rw [if_pos less] at red
        exact Kept.left noRed right (ihl noRed.2.1 left red)
      · rename_i notLess
        rw [if_neg notLess] at red
        exact Kept.right noRed left (ihr noRed.2.2 right red)

/-! ### Deletions that take a black node out -/

/-- Two paths of a tree pass different numbers of black nodes. -/
def Mixed (t : Tree κ β) : Prop := ∃ d ∈ paths t, ∃ e ∈ paths t, d ≠ e

/-- All paths have lost one of `n` black nodes. -/
def Short (n : Nat) (t : Tree κ β) : Prop := ∀ d ∈ paths t, d + 1 = n

theorem Mixed.of_left {c : Colour} {l' : Tree κ β} {k : κ} {v : β} {r : Tree κ β} {m : Nat}
    (right : Uniform m r) (changed : Short m l' ∨ Mixed l') : Mixed (balance c l' k v r) := by
  rw [Mixed, paths_balance]
  rcases changed with short | ⟨d, here, e, there, differ⟩
  · obtain ⟨d, here⟩ := paths_ne_nil l'
    obtain ⟨e, there⟩ := paths_ne_nil r
    have less := short d here
    have same := right e there
    exact ⟨_, mem_paths_node.mpr ⟨d, .inl here, rfl⟩, _, mem_paths_node.mpr ⟨e, .inr there, rfl⟩,
      by omega⟩
  · exact ⟨_, mem_paths_node.mpr ⟨d, .inl here, rfl⟩, _, mem_paths_node.mpr ⟨e, .inl there, rfl⟩,
      by omega⟩

theorem Mixed.of_right {c : Colour} {l : Tree κ β} {k : κ} {v : β} {r' : Tree κ β} {m : Nat}
    (left : Uniform m l) (changed : Short m r' ∨ Mixed r') : Mixed (balance c l k v r') := by
  rw [Mixed, paths_balance]
  rcases changed with short | ⟨d, here, e, there, differ⟩
  · obtain ⟨d, here⟩ := paths_ne_nil l
    obtain ⟨e, there⟩ := paths_ne_nil r'
    have less := short e there
    have same := left d here
    exact ⟨_, mem_paths_node.mpr ⟨d, .inl here, rfl⟩, _, mem_paths_node.mpr ⟨e, .inr there, rfl⟩,
      by omega⟩
  · exact ⟨_, mem_paths_node.mpr ⟨d, .inr here, rfl⟩, _, mem_paths_node.mpr ⟨e, .inr there, rfl⟩,
      by omega⟩

theorem delMin_black {c : Colour} {l : Tree κ β} {k : κ} {v : β} {r : Tree κ β} {n : Nat}
    (uniform : Uniform n (.node c l k v r)) (black : minColour c l = .black) :
    Short n (delMin (.node c l k v r)) ∨ Mixed (delMin (.node c l k v r)) := by
  induction l generalizing c k v r n with
  | empty =>
    obtain rfl : c = .black := black
    obtain ⟨m, rfl, left, right⟩ := uniform.children
    exact .inl fun d mem => congrArg (· + 1) (right d mem)
  | node lc ll lk lv lr ihl ihr =>
    obtain ⟨m, rfl, left, right⟩ := uniform.children
    rw [delMin_node]
    exact .inr (.of_left right (ihl left black))

/-- A black node that is taken out is missing on some paths only, or is the root. -/
theorem del_black {t : Tree κ β} {key : κ} {n : Nat} (uniform : Uniform n t)
    (black : victim cmp key t = some .black) :
    (rootAlone cmp key t = true ∧ Short n (del cmp key t)) ∨ Mixed (del cmp key t) := by
  induction t generalizing n with
  | empty => cases black
  | node c l k v r ihl ihr =>
    obtain ⟨m, rfl, left, right⟩ := uniform.children
    rw [victim.eq_def] at black
    rw [del.eq_def]
    dsimp only at black ⊢
    split
    · rename_i same
      rw [if_pos same] at black
      cases r with
      | empty =>
        cases black
        exact .inl ⟨same, fun d mem => congrArg (· + 1) (left d mem)⟩
      | node rc rl rk rv rr =>
        exact .inr (.of_right left (delMin_black right (Option.some.inj black)))
    · rename_i differ
      rw [if_neg differ] at black
      split
      · rename_i less
        rw [if_pos less] at black
        exact .inr (.of_left right ((ihl left black).imp_left And.right))
      · rename_i notLess
        rw [if_neg notLess] at black
        exact .inr (.of_right left ((ihr right black).imp_left And.right))

theorem Mixed.blacken {t : Tree κ β} (mixed : Mixed t) : Mixed (blacken t) := by
  cases t with
  | empty => exact mixed
  | node c l k v r =>
    obtain ⟨d, here, e, there, differ⟩ := mixed
    obtain ⟨d', here', rfl⟩ := mem_paths_node.mp here
    obtain ⟨e', there', rfl⟩ := mem_paths_node.mp there
    exact ⟨_, mem_paths_node.mpr ⟨d', here', rfl⟩, _, mem_paths_node.mpr ⟨e', there', rfl⟩,
      by omega⟩

theorem Mixed.not_redBlack {t : Tree κ β} (mixed : Mixed t) : ¬ RedBlack t := by
  intro redBlack
  obtain ⟨n, same⟩ := redBlack.uniform
  obtain ⟨d, here, e, there, differ⟩ := mixed
  exact differ ((same d here).trans (same e there).symm)

theorem rootAlone_redBlack {t : Tree κ β} {key : κ} (redBlack : RedBlack t)
    (alone : rootAlone cmp key t = true) : RedBlack (rbtDelete cmp t key) := by
  cases t with
  | empty => cases alone
  | node c l k v r =>
    cases r with
    | node rc rl rk rv rr => cases alone
    | empty =>
      have same : cmp.eq key k = true := alone
      obtain ⟨n, uniform⟩ := redBlack.uniform
      obtain ⟨m, -, left, -⟩ := Uniform.children uniform
      have result : rbtDelete cmp (.node c l k v .empty) key = blacken l := by
        rw [rbtDelete, del.eq_def]
        dsimp only
        rw [if_pos same]
      rw [result]
      exact ⟨root_blacken l, noRed_blacken (weak_of_noRed redBlack.noRed.2.1),
        uniform_blacken ⟨m, left⟩⟩

/-- A deletion gives a red-black tree exactly when it is harmless. -/
theorem delete_redBlack_iff {t : Tree κ β} (redBlack : RedBlack t) (key : κ) :
    RedBlack (rbtDelete cmp t key) ↔ harmless cmp key t = true := by
  rw [harmless, Bool.or_eq_true, bne_iff_ne]
  obtain ⟨n, uniform⟩ := redBlack.uniform
  constructor
  · intro after
    by_contra both
    obtain ⟨black, notAlone⟩ := not_or.mp both
    rcases del_black uniform (not_not.mp black) with ⟨alone, -⟩ | mixed
    · exact notAlone alone
    · exact mixed.blacken.not_redBlack after
  · rintro (red | alone)
    · have kept := del_kept redBlack.noRed uniform red
      exact ⟨root_blacken _, noRed_blacken (weak_of_noRed kept.noRed),
        uniform_blacken ⟨n, kept.uniform⟩⟩
    · exact rootAlone_redBlack redBlack alone

/-! ### Heights -/

def height : Tree κ β → Nat
  | .empty => 0
  | .node _ l _ _ r => max (height l) (height r) + 1

theorem Uniform.size {t : Tree κ β} {n : Nat} (uniform : Uniform n t) :
    2 ^ n ≤ t.toList.length + 1 := by
  induction t generalizing n with
  | empty =>
    obtain rfl := uniform.zero_of_empty
    exact Nat.le_refl _
  | node c l k v r ihl ihr =>
    obtain ⟨m, rfl, left, right⟩ := uniform.children
    have first := ihl left
    have second := ihr right
    rw [Tree.toList, List.length_append, List.length_cons]
    cases c with
    | red =>
      rw [Colour.blacks, Nat.add_zero]
      omega
    | black =>
      rw [Colour.blacks, Nat.pow_succ]
      omega

theorem height_le {t : Tree κ β} {n : Nat} (noRed : NoRed t) (uniform : Uniform n t) :
    height t ≤ 2 * n + if t.isRed then 1 else 0 := by
  induction t generalizing n with
  | empty => exact Nat.zero_le _
  | node c l k v r ihl ihr =>
    obtain ⟨m, rfl, left, right⟩ := uniform.children
    have first := ihl noRed.2.1 left
    have second := ihr noRed.2.2 right
    rw [height]
    cases c with
    | red =>
      rw [(noRed.1 rfl).1, if_neg (by rintro ⟨⟩)] at first
      rw [(noRed.1 rfl).2, if_neg (by rintro ⟨⟩)] at second
      rw [if_pos (show (Tree.node .red l k v r).isRed = true from rfl), Colour.blacks]
      omega
    | black =>
      rw [if_neg (show ¬ (Tree.node .black l k v r).isRed = true by rintro ⟨⟩), Colour.blacks]
      split at first <;> split at second <;> omega

theorem RedBlack.height_le {t : Tree κ β} (redBlack : RedBlack t) :
    height t ≤ 2 * Nat.log2 (t.toList.length + 1) := by
  obtain ⟨n, uniform⟩ := redBlack.uniform
  have bound := Mapping.height_le redBlack.noRed uniform
  have size := Uniform.size uniform
  rw [redBlack.root, if_neg (by rintro ⟨⟩)] at bound
  have log : n ≤ Nat.log2 (t.toList.length + 1) := (Nat.le_log2 (Nat.succ_ne_zero _)).mpr size
  omega

end Chaaya.Mapping

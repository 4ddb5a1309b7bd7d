import Mathlib.Data.Finset.Basic
import Mathlib.Data.List.Infix

/-!
# A tree of paths that several clients change

A path is a list of names and a `Tree` a finite set of paths that is closed under parents.  A `Server` keeps a tree and
answers the create requests of one client; a `Schedule` says which of them it refuses, and what other clients create
and delete between any two events of the run.  The server records every tree it has had and every create it has
answered, so that statements about a run can speak of the moments in between.

`Server.mkdir` creates a path from its end: it tries the whole path, and only where the parent is missing makes the
parent first and tries again.  `mkdir_answer` ties its answer to the answers of the single requests under every schedule,
and `mkdir_alone` says what it does to the tree when nobody else is active.
-/

namespace PathTree

/-! ### Trees -/

structure Tree (N : Type) where
  nodes : Finset (List N)
  closed : ∀ p n, p ++ [n] ∈ nodes → p ∈ nodes

/-- A request of another client. -/
inductive Change (N : Type) where
  | create (p : List N)
  | delete (p : List N)
  deriving DecidableEq, Repr

namespace Tree

variable {N : Type}

instance : Membership (List N) (Tree N) := ⟨fun t p => p ∈ t.nodes⟩

theorem mem_of_prefix {t : Tree N} {p q : List N} (h : p <+: q) (hq : q ∈ t) : p ∈ t := by
  obtain ⟨r, rfl⟩ := h
  induction r using List.reverseRecOn with
  | nil => simpa using hq
  | append_singleton r n ih =>
    rw [← List.append_assoc] at hq
    exact ih (t.closed _ _ hq)

/-- What a path adds to a tree is behind every node of the tree on the same way. -/
theorem mem_or_prefix {t : Tree N} {a b p path : List N} (ha : a <+: path) (hb : b <+: path) (hat : a ∈ t) :
    p ∈ t ∨ p <+: b ↔ p ∈ t ∨ (a <+: p ∧ p ≠ a ∧ p <+: b) := by
  constructor
  · rintro (hp | hp)
    · exact .inl hp
    · by_cases hpt : p ∈ t
      · exact .inl hpt
      · refine .inr ⟨?_, fun h => hpt (h ▸ hat), hp⟩
        rcases List.prefix_or_prefix_of_prefix ha (hp.trans hb) with hle | hle
        · exact hle
        · have hmem := mem_of_prefix hle hat
          exact absurd hmem hpt
  · rintro (hp | ⟨-, -, hp⟩)
    · exact .inl hp
    · exact .inr hp

variable [DecidableEq N]

instance (p : List N) (t : Tree N) : Decidable (p ∈ t) := inferInstanceAs (Decidable (p ∈ t.nodes))

/-- Add a path whose parent is there. -/
def insert (t : Tree N) (p : List N) (h : p = [] ∨ p.dropLast ∈ t) : Tree N where
  nodes := Insert.insert p t.nodes
  closed := by
    intro q n hq
    rcases Finset.mem_insert.1 hq with rfl | hq
    · rcases h with h | h
      · exact absurd h (by simp)
      · rw [List.dropLast_concat] at h
        exact Finset.mem_insert_of_mem h
    · exact Finset.mem_insert_of_mem (t.closed q n hq)

/-- Remove a path that has no children. -/
def erase (t : Tree N) (p : List N) (h : ∀ q ∈ t.nodes, p <+: q → q = p) : Tree N where
  nodes := t.nodes.erase p
  closed := by
    intro q n hq
    obtain ⟨hne, hmem⟩ := Finset.mem_erase.1 hq
    refine Finset.mem_erase.2 ⟨?_, t.closed q n hmem⟩
    rintro rfl
    exact hne (h _ hmem (List.prefix_append q [n]))

/-- A create needs the parent, a delete a node without children; anything else is refused. -/
def apply (t : Tree N) : Change N → Tree N
  | .create p => if h : p = [] ∨ p.dropLast ∈ t then t.insert p h else t
  | .delete p => if h : ∀ q ∈ t.nodes, p <+: q → q = p then t.erase p h else t

@[simp] theorem mem_insert {t : Tree N} {p q : List N} {h : p = [] ∨ p.dropLast ∈ t} :
    q ∈ t.insert p h ↔ q = p ∨ q ∈ t :=
  Finset.mem_insert

/-- A create that finds the parent adds exactly its path. -/
theorem mem_apply_create {t : Tree N} {p q : List N} (h : p.dropLast ∈ t) :
    q ∈ t.apply (.create p) ↔ q = p ∨ q ∈ t := by
  show q ∈ (if h : p = [] ∨ p.dropLast ∈ t then t.insert p h else t) ↔ _
  rw [dif_pos (.inr h), mem_insert]

/-- With the root in the tree, a path has a deepest ancestor, or is one. -/
theorem exists_deepest {t : Tree N} (hroot : [] ∈ t) (p : List N) :
    ∃ a, a <+: p ∧ a ∈ t ∧ ∀ q, q <+: p → q ∈ t → q <+: a := by
  induction p using List.reverseRecOn with
  | nil => exact ⟨[], List.nil_prefix, hroot, fun q hq _ => hq⟩
  | append_singleton p n ih =>
    by_cases hp : p ++ [n] ∈ t
    · exact ⟨p ++ [n], List.prefix_refl _, hp, fun q hq _ => hq⟩
    · obtain ⟨a, hap, ha, hmax⟩ := ih
      refine ⟨a, hap.trans (List.prefix_append p [n]), ha, fun q hq hqt => ?_⟩
      rcases List.prefix_concat_iff.1 hq with rfl | hq
      · exact absurd hqt hp
      · exact hmax q hq hqt

end Tree

/-! ### The server -/

inductive Answer (E : Type) where
  | ok
  | noNode
  | exists
  | refused (e : E)
  deriving DecidableEq, Repr

/-- `refuse i` says whether a create is refused at the time `i`, `others i` what other clients request at the time `i`;
`malformed` is the answer to a create that names no node. -/
structure Schedule (N E : Type) where
  refuse : Nat → Option E
  malformed : E
  others : Nat → List (Change N)

/-- An answered create: its path, the tree that it found, the answer. -/
structure Record (N E : Type) where
  path : List N
  tree : Tree N
  answer : Answer E

/-- The answer says what the create has found. -/
structure Record.Sound {N E : Type} (r : Record N E) : Prop where
  noNode : r.answer = .noNode ↔ r.path ≠ [] ∧ r.path.dropLast ∉ r.tree
  «exists» : r.answer = .exists ↔ r.path ≠ [] ∧ r.path ∈ r.tree

structure Server (N E : Type) where
  tree : Tree N
  time : Nat
  /-- The trees before this one, last first. -/
  earlier : List (Tree N)
  log : List (Record N E)

namespace Server

variable {N E : Type} [DecidableEq N] (sch : Schedule N E)

/-- Every tree of the run so far. -/
def moments (s : Server N E) : List (Tree N) := s.tree :: s.earlier

/-- The run starts here. -/
def Fresh (s : Server N E) : Prop := s.earlier = [] ∧ s.log = []

def change (s : Server N E) (c : Change N) : Server N E :=
  { s with tree := s.tree.apply c, earlier := s.tree :: s.earlier }

/-- The other clients have their turn, and time passes. -/
def turn (s : Server N E) : Server N E := { (sch.others s.time).foldl change s with time := s.time + 1 }

/-- The answer to a create that arrives now. -/
def answer (s : Server N E) (p : List N) : Answer E :=
  if p = [] then .refused sch.malformed
  else if p.dropLast ∉ s.tree then .noNode
  else if p ∈ s.tree then .exists
  else match sch.refuse s.time with
    | some e => .refused e
    | none => .ok

/-- A create arrives after others had their turn. -/
def request (p : List N) (s : Server N E) : Answer E × Server N E :=
  let s := s.turn sch
  let a := s.answer sch p
  let s := { s with log := ⟨p, s.tree, a⟩ :: s.log }
  (a, match a with | .ok => s.change (.create p) | _ => s)

/-- A create, with the turn of the others before its answer arrives. -/
def create (p : List N) (s : Server N E) : Answer E × Server N E :=
  let r := s.request sch p
  (r.1, r.2.turn sch)

/-- `mkdir` for the names of a path, last name first. -/
def mkdirRev : List N → Server N E → Answer E × Server N E
  | [], s => s.create sch []
  | n :: r, s =>
    match s.create sch (n :: r).reverse with
    | (.noNode, s) =>
      match mkdirRev r s with
      | (.ok, s) => s.create sch (n :: r).reverse
      | other => other
    | other => other

/-- Create a path; where its parent is missing, make the parent and try again. -/
def mkdir (p : List N) (s : Server N E) : Answer E × Server N E := mkdirRev sch p.reverse s

theorem mkdir_nil (s : Server N E) : s.mkdir sch [] = s.create sch [] := rfl

/-- The three ways `mkdir` can go: the first create decides, making the parent fails, or the second create decides. -/
theorem mkdir_concat (p : List N) (n : N) (s : Server N E) :
    let first := s.create sch (p ++ [n])
    let parent := first.2.mkdir sch p
    (first.1 ≠ .noNode ∧ s.mkdir sch (p ++ [n]) = first) ∨
      (first.1 = .noNode ∧ parent.1 ≠ .ok ∧ s.mkdir sch (p ++ [n]) = parent) ∨
      (first.1 = .noNode ∧ parent.1 = .ok ∧ s.mkdir sch (p ++ [n]) = parent.2.create sch (p ++ [n])) := by
  intro first parent
  have hrev : (p ++ [n]).reverse = n :: p.reverse := by simp
  have hnames : (n :: p.reverse).reverse = p ++ [n] := by simp
  unfold mkdir
  rw [hrev, mkdirRev, hnames]
  rcases hf : first with ⟨_ | _ | _ | e, s₁⟩
  · exact .inl ⟨by simp, by rw [show s.create sch (p ++ [n]) = _ from hf]⟩
  · have hparent : parent = mkdirRev sch p.reverse s₁ := by simp only [parent, hf, mkdir]
    rcases hm : mkdirRev sch p.reverse s₁ with ⟨_ | _ | _ | e, s₂⟩
    all_goals simp [hparent, hm, show s.create sch (p ++ [n]) = _ from hf]
  · exact .inl ⟨by simp, by rw [show s.create sch (p ++ [n]) = _ from hf]⟩
  · exact .inl ⟨by simp, by rw [show s.create sch (p ++ [n]) = _ from hf]⟩

/-! ### What a run records -/

private theorem foldl_change_log (cs : List (Change N)) (s : Server N E) : (cs.foldl change s).log = s.log := by
  induction cs generalizing s with
  | nil => rfl
  | cons c cs ih => exact ih (s.change c)

private theorem mem_foldl_change {cs : List (Change N)} {s : Server N E} {t : Tree N} (ht : t ∈ s.moments) :
    t ∈ (cs.foldl change s).moments := by
  induction cs generalizing s with
  | nil => exact ht
  | cons c cs ih => exact ih (List.mem_cons_of_mem _ ht)

@[simp] theorem turn_log (s : Server N E) : (s.turn sch).log = s.log := foldl_change_log _ _

theorem mem_turn {s : Server N E} {t : Tree N} (ht : t ∈ s.moments) : t ∈ (s.turn sch).moments := mem_foldl_change ht

theorem create_log (p : List N) (s : Server N E) :
    (s.create sch p).2.log = ⟨p, (s.turn sch).tree, (s.create sch p).1⟩ :: s.log := by
  cases h : (s.turn sch).answer sch p <;> simp [create, request, h, change]

private theorem mem_request {p : List N} {s : Server N E} {t : Tree N} (ht : t ∈ (s.turn sch).moments) :
    t ∈ (s.request sch p).2.moments := by
  cases h : (s.turn sch).answer sch p with
  | ok =>
    simp only [request, h]
    exact List.mem_cons_of_mem _ ht
  | noNode | «exists» | refused e =>
    simp only [request, h]
    exact ht

theorem mem_create {p : List N} {s : Server N E} {t : Tree N} (ht : t ∈ s.moments) : t ∈ (s.create sch p).2.moments :=
  mem_turn sch (mem_request sch (mem_turn sch ht))

/-- The tree that a create finds is one of the moments behind it. -/
theorem turn_mem_create (p : List N) (s : Server N E) : (s.turn sch).tree ∈ (s.create sch p).2.moments :=
  mem_turn sch (mem_request sch List.mem_cons_self)

private theorem create_sound (p : List N) (s : Server N E) :
    (⟨p, (s.turn sch).tree, (s.create sch p).1⟩ : Record N E).Sound := by
  have hmem : p ∈ (s.turn sch).tree → p.dropLast ∈ (s.turn sch).tree := Tree.mem_of_prefix (List.dropLast_prefix p)
  have hanswer : (s.create sch p).1 = (s.turn sch).answer sch p := rfl
  constructor
  all_goals
    simp only [hanswer, answer]
    split
    · simp_all
    · split
      · simp_all
        try tauto
      · split
        · simp_all
        · split <;> simp_all

/-- An accepted create leaves its path in the tree. -/
theorem create_ok {p : List N} {s : Server N E} (h : (s.create sch p).1 = .ok) :
    ∃ t ∈ (s.create sch p).2.moments, p ∈ t := by
  have ha : (s.turn sch).answer sch p = .ok := h
  have hparent : p.dropLast ∈ (s.turn sch).tree := by
    by_contra hno
    have := (create_sound sch p s).noNode
    by_cases hp : p = [] <;> simp_all [answer]
  refine ⟨(s.turn sch).tree.apply (.create p), mem_turn sch ?_, (Tree.mem_apply_create hparent).2 (.inl rfl)⟩
  simp [request, ha, moments, change]

/-- What a create preserves, `mkdir` preserves. -/
theorem mkdir_inv {I : Server N E → Prop} (hcreate : ∀ q s, I s → I (s.create sch q).2) (p : List N) {s : Server N E}
    (hs : I s) : I (s.mkdir sch p).2 := by
  induction p using List.reverseRecOn generalizing s with
  | nil => exact hcreate [] s hs
  | append_singleton p n ih =>
    have h₁ := hcreate (p ++ [n]) s hs
    rcases mkdir_concat sch p n s with ⟨-, he⟩ | ⟨-, -, he⟩ | ⟨-, -, he⟩
    all_goals rw [he]
    · exact h₁
    · exact ih h₁
    · exact hcreate _ _ (ih h₁)

/-- The records of a run are about its moments. -/
def Recorded (s : Server N E) : Prop := ∀ r ∈ s.log, r.Sound ∧ r.tree ∈ s.moments

omit [DecidableEq N] in
theorem Fresh.recorded {s : Server N E} (hs : s.Fresh) : s.Recorded := by
  intro r hr
  rw [hs.2] at hr
  cases hr

theorem mkdir_recorded (p : List N) {s : Server N E} (hs : s.Recorded) : (s.mkdir sch p).2.Recorded := by
  refine mkdir_inv sch (I := Recorded) (fun q s hs r hr => ?_) p hs
  rw [create_log] at hr
  rcases List.mem_cons.1 hr with rfl | hr
  · exact ⟨create_sound sch q s, turn_mem_create sch q s⟩
  · exact ⟨(hs r hr).1, mem_create sch (hs r hr).2⟩

theorem mkdir_ok {p : List N} {s : Server N E} (h : (s.mkdir sch p).1 = .ok) :
    ∃ t ∈ (s.mkdir sch p).2.moments, p ∈ t := by
  induction p using List.reverseRecOn with
  | nil => exact create_ok sch h
  | append_singleton p n =>
    rcases mkdir_concat sch p n s with ⟨-, he⟩ | ⟨-, hne, he⟩ | ⟨-, -, he⟩
    all_goals rw [he] at h ⊢
    · exact create_ok sch h
    · exact absurd h hne
    · exact create_ok sch h

private theorem mkdir_log {x : Answer E} (hok : x ≠ .ok) (hno : x ≠ .noNode) (p : List N) (s : Server N E) :
    (∃ r ∈ (s.mkdir sch p).2.log, r.answer = x) ↔ (∃ r ∈ s.log, r.answer = x) ∨ (s.mkdir sch p).1 = x := by
  have hcreate : ∀ q (s : Server N E), (∃ r ∈ (s.create sch q).2.log, r.answer = x) ↔
      (∃ r ∈ s.log, r.answer = x) ∨ (s.create sch q).1 = x := by
    intro q s
    rw [create_log]
    simp only [List.mem_cons, exists_eq_or_imp]
    exact or_comm
  induction p using List.reverseRecOn generalizing s with
  | nil => exact hcreate [] s
  | append_singleton p n ih =>
    have h₁ := hcreate (p ++ [n]) s
    have h₂ := ih (s.create sch (p ++ [n])).2
    rcases mkdir_concat sch p n s with ⟨-, he⟩ | ⟨hfirst, -, he⟩ | ⟨hfirst, hparent, he⟩
    all_goals rw [he]
    · exact h₁
    · rw [hfirst, or_iff_left hno.symm] at h₁
      exact h₂.trans (or_congr_left h₁)
    · rw [hfirst, or_iff_left hno.symm] at h₁
      rw [hparent, or_iff_left hok.symm] at h₂
      exact (hcreate _ _).trans (or_congr_left (h₂.trans h₁))

/-- An answer that ends the recursion is the answer of `mkdir` exactly when some create got it. -/
theorem mkdir_answer {x : Answer E} (hok : x ≠ .ok) (hno : x ≠ .noNode) (p : List N) {s : Server N E} (hs : s.Fresh) :
    (s.mkdir sch p).1 = x ↔ ∃ r ∈ (s.mkdir sch p).2.log, r.answer = x := by
  have h := mkdir_log sch hok hno p s
  rw [hs.2] at h
  simpa using h.symm

/-- Every name of the path costs at most two creates. -/
theorem mkdir_length_log (p : List N) (s : Server N E) :
    (s.mkdir sch p).2.log.length ≤ s.log.length + 2 * p.length + 1 := by
  have hcreate : ∀ q (s : Server N E), (s.create sch q).2.log.length = s.log.length + 1 := by
    intro q s
    rw [create_log, List.length_cons]
  induction p using List.reverseRecOn generalizing s with
  | nil => exact (hcreate [] s).le
  | append_singleton p n ih =>
    have h₁ := hcreate (p ++ [n]) s
    have h₂ := ih (s.create sch (p ++ [n])).2
    have hlen : (p ++ [n]).length = p.length + 1 := by simp
    rcases mkdir_concat sch p n s with ⟨-, he⟩ | ⟨-, -, he⟩ | ⟨-, -, he⟩
    all_goals rw [he]
    · omega
    · omega
    · rw [hcreate]
      omega

/-! ### Nobody else -/

/-- What a create can do to the tree `t` for the path `p` when nobody else is active: nothing when the path is there,
add the path and its missing ancestors, or stop at an ancestor `b` that is at least as deep as all that were there. -/
inductive Outcome (t : Tree N) (p : List N) : Answer E → Tree N → Prop
  | present (h : p ∈ t) : Outcome t p .exists t
  | created {t' : Tree N} (h : p ∉ t) (hmem : ∀ q, q ∈ t' ↔ q ∈ t ∨ q <+: p) : Outcome t p .ok t'
  | refused {t' : Tree N} (e : E) (b : List N) (h : p ∉ t) (hb : b <+: p) (hne : b ≠ p)
      (hdeep : ∀ q, q <+: p → q ∈ t → q <+: b) (hmem : ∀ q, q ∈ t' ↔ q ∈ t ∨ q <+: b) : Outcome t p (.refused e) t'

omit [DecidableEq N] in
private theorem Outcome.of_parent {t t' : Tree N} {p : List N} {n : N} {a : Answer E} (h : Outcome t p a t')
    (hp : p ∉ t) (ha : a ≠ .ok) : Outcome t (p ++ [n]) a t' := by
  have hpn : p ++ [n] ∉ t := fun h => hp (t.closed p n h)
  cases h with
  | present h => exact absurd h hp
  | created => exact absurd rfl ha
  | refused e b _ hb hne hdeep hmem =>
    refine .refused e b hpn (hb.trans (List.prefix_append p [n])) ?_ (fun q hq hqt => ?_) hmem
    · rintro rfl
      exact absurd hb.length_le (by simp)
    · rcases List.prefix_concat_iff.1 hq with rfl | hq
      · exact absurd hqt hpn
      · exact hdeep q hq hqt

omit [DecidableEq N] in
private theorem Outcome.after_parent {t t₁ t₂ : Tree N} {p : List N} {n : N} {a : Answer E}
    (h₁ : Outcome (E := E) t p .ok t₁) (h₂ : Outcome t₁ (p ++ [n]) a t₂) : Outcome t (p ++ [n]) a t₂ := by
  obtain ⟨hp, hmem₁⟩ : p ∉ t ∧ ∀ q, q ∈ t₁ ↔ q ∈ t ∨ q <+: p := by
    cases h₁ with
    | created h hmem => exact ⟨h, hmem⟩
  have hpn : p ++ [n] ∉ t := fun h => hp (t.closed p n h)
  have hp₁ : p ∈ t₁ := (hmem₁ p).2 (.inr (List.prefix_refl p))
  have hshort : ∀ b, p <+: b → b <+: p ++ [n] → b ≠ p ++ [n] → b = p := by
    intro b hpb hb hne
    rcases List.prefix_concat_iff.1 hb with rfl | hb
    · exact absurd rfl hne
    · exact hb.eq_of_length_le hpb.length_le
  cases h₂ with
  | present h =>
    rcases (hmem₁ _).1 h with h | h
    · exact absurd h hpn
    · exact absurd h.length_le (by simp)
  | created _ hmem =>
    refine .created hpn fun q => ?_
    rw [hmem, hmem₁, or_assoc]
    exact or_congr_right ⟨fun h => h.elim (·.trans (List.prefix_append p [n])) id, .inr⟩
  | refused e b _ hb hne hdeep hmem =>
    obtain rfl := hshort b (hdeep p (List.prefix_append p [n]) hp₁) hb hne
    refine .refused e b hpn hb hne (fun q hq hqt => hdeep q hq ((hmem₁ q).2 (.inl hqt))) fun q => ?_
    rw [hmem, hmem₁, or_assoc, or_self]

section Alone

variable {sch} (hsch : ∀ i, sch.others i = [])

include hsch

theorem turn_tree (s : Server N E) : (s.turn sch).tree = s.tree := by
  unfold turn
  rw [hsch]
  rfl

/-- A create whose parent is there. -/
private theorem create_alone {p : List N} {n : N} {s : Server N E} (hp : p ∈ s.tree) :
    Outcome s.tree (p ++ [n]) (s.create sch (p ++ [n])).1 (s.create sch (p ++ [n])).2.tree := by
  have hdeep : p ++ [n] ∉ s.tree → ∀ q, q <+: p ++ [n] → q ∈ s.tree → q <+: p := by
    intro hno q hq hqt
    rcases List.prefix_concat_iff.1 hq with rfl | hq
    · exact absurd hqt hno
    · exact hq
  have hbelow : ∀ q, q <+: p → q ∈ s.tree := fun q hq => Tree.mem_of_prefix hq hp
  have hparent : (p ++ [n]).dropLast ∈ s.tree := by rwa [List.dropLast_concat]
  unfold create
  simp only [turn_tree hsch]
  have hne : p ++ [n] ≠ [] := by simp
  unfold request
  simp only [answer, turn_tree hsch, if_neg hne, not_not.2 hparent, if_false]
  by_cases hthere : p ++ [n] ∈ s.tree
  · simp only [if_pos hthere]
    exact .present hthere
  · simp only [if_neg hthere]
    cases sch.refuse (s.turn sch).time with
    | some e =>
      exact .refused e p hthere (List.prefix_append p [n]) (by simp) (hdeep hthere) fun q =>
        ⟨.inl, fun h => h.elim id (hbelow q)⟩
    | none =>
      refine .created hthere fun q => ?_
      show q ∈ s.tree.apply (.create (p ++ [n])) ↔ _
      rw [Tree.mem_apply_create hparent, List.prefix_concat_iff]
      constructor
      · rintro (h | h)
        · exact .inr (.inl h)
        · exact .inl h
      · rintro (h | h | h)
        · exact .inr h
        · exact .inl h
        · exact .inr (hbelow q h)

private theorem create_missing {p : List N} {n : N} {s : Server N E} (hp : p ∉ s.tree) :
    (s.create sch (p ++ [n])).1 = .noNode ∧ (s.create sch (p ++ [n])).2.tree = s.tree := by
  have hparent : (p ++ [n]).dropLast ∉ s.tree := by rwa [List.dropLast_concat]
  have hne : p ++ [n] ≠ [] := by simp
  have hanswer : (s.turn sch).answer sch (p ++ [n]) = .noNode := by
    unfold answer
    rw [if_neg hne, turn_tree hsch, if_pos hparent]
  unfold create request
  simp only [hanswer, turn_tree hsch, and_self]

/-- `mkdir` when nobody else is active. -/
theorem mkdir_alone {p : List N} (hp : p ≠ []) {s : Server N E} (hroot : [] ∈ s.tree) :
    Outcome s.tree p (s.mkdir sch p).1 (s.mkdir sch p).2.tree := by
  induction p using List.reverseRecOn generalizing s with
  | nil => exact absurd rfl hp
  | append_singleton p n ih =>
    by_cases hthere : p ∈ s.tree
    · have hout := create_alone hsch (n := n) hthere
      rcases mkdir_concat sch p n s with ⟨-, he⟩ | ⟨hfirst, -⟩ | ⟨hfirst, -⟩
      · rwa [he]
      all_goals
        rw [hfirst] at hout
        cases hout
    · obtain ⟨hfirst, htree⟩ := create_missing hsch (n := n) hthere
      have hmissing : p ++ [n] ∉ s.tree := fun h => hthere (s.tree.closed p n h)
      have hne : p ≠ [] := fun h => hthere (h ▸ hroot)
      have hout := ih hne (s := (s.create sch (p ++ [n])).2) (by rwa [htree])
      rw [htree] at hout
      rcases mkdir_concat sch p n s with ⟨hno, -⟩ | ⟨-, hparent, he⟩ | ⟨-, hparent, he⟩
      · exact absurd hfirst hno
      · rw [he]
        exact hout.of_parent hthere hparent
      · rw [hparent] at hout
        rw [he]
        refine hout.after_parent (create_alone hsch ?_)
        cases hout with
        | created _ hmem => exact (hmem p).2 (.inr (List.prefix_refl p))

end Alone

end Server

end PathTree

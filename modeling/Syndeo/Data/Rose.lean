import Mathlib.Data.List.Basic

/-!
# Rose trees, walked with a stack

A tree whose nodes have any number of children, and the two loops that walk one
without recursing. `Rose.sweep` keeps the nodes still to be seen on a stack.
`Rose.run` keeps steps on it: a node to enter, or one to leave, which is below the
node's children on the stack; entering a node may also decide not to go into it.
Both do what the recursion over the tree does (`Rose.sweep_eq`, `Rose.run_enter`).

What a walk meets is a list of nodes in document order. `Rose.reach stop` is
that list for a walk that does not go into some of the nodes. Where the nodes it
does not go into are those of a kind, the nodes it meets below one of them are
those whose nearest ancestor of the kind it is (`Rose.near`).
-/

/-- A node with its children, in order. -/
inductive Rose (α : Type) : Type
  | node (label : α) (children : List (Rose α)) : Rose α

namespace Rose

variable {α β γ σ : Type}

def label : Rose α → α
  | .node a _ => a

def children : Rose α → List (Rose α)
  | .node _ ts => ts

/-- **Induction over a tree**: what holds of the children holds of the node. -/
@[elab_as_elim, induction_eliminator]
theorem induct {P : Rose α → Prop} (node : ∀ a ts, (∀ t ∈ ts, P t) → P (.node a ts)) :
    ∀ t, P t := by
  intro t
  refine Rose.rec (motive_1 := P) (motive_2 := fun ts => ∀ t ∈ ts, P t) node ?_ ?_ t
  · exact fun t h => absurd h List.not_mem_nil
  · exact fun t ts ht hts u hu => (List.mem_cons.mp hu).elim (fun h => h ▸ ht) (hts u)

mutual

/-- The nodes that are met from the root on, in document order, by a walk that does not
meet those at which it stops, nor what is under them. -/
def reach (stop : Rose α → Bool) : Rose α → List (Rose α)
  | .node a ts => if stop (.node a ts) then [] else .node a ts :: reachAll stop ts

def reachAll (stop : Rose α → Bool) : List (Rose α) → List (Rose α)
  | [] => []
  | t :: ts => t.reach stop ++ reachAll stop ts

end

/-- The node, and what is met below it. -/
def near (stop : Rose α → Bool) (t : Rose α) : List (Rose α) := t :: reachAll stop t.children

/-- All nodes. -/
def nodes (t : Rose α) : List (Rose α) := t.reach fun _ => false

variable {stop skip : Rose α → Bool} {t u : Rose α} {ts us : List (Rose α)} {a : α}

@[simp] theorem reachAll_nil : reachAll stop ([] : List (Rose α)) = [] := by rw [reachAll]

@[simp] theorem reachAll_cons : reachAll stop (t :: ts) = t.reach stop ++ reachAll stop ts := by
  rw [reachAll]

theorem reach_of_stop (h : stop t = true) : t.reach stop = [] := by
  cases t
  rw [reach, if_pos h]

theorem reach_of_not_stop (h : stop t = false) : t.reach stop = t.near stop := by
  cases t
  rw [reach, h, near]
  rfl

theorem nodes_eq (t : Rose α) : t.nodes = t.near fun _ => false := reach_of_not_stop rfl

theorem mem_reachAll : u ∈ reachAll stop ts ↔ ∃ t ∈ ts, u ∈ t.reach stop := by
  induction ts with
  | nil => simp
  | cons t ts ih => simp [ih]

/-- What is met is not a node at which the walk stops. -/
theorem not_stop_of_mem_reach (h : u ∈ t.reach stop) : stop u = false := by
  induction t with
  | node a ts ih =>
    rcases hstop : stop (.node a ts) with _ | _
    · rw [reach_of_not_stop hstop] at h
      rcases List.mem_cons.mp h with rfl | h
      · exact hstop
      · obtain ⟨t, ht, hu⟩ := mem_reachAll.mp h
        exact ih t ht hu
    · rw [reach_of_stop hstop] at h
      exact absurd h List.not_mem_nil

/-- **What is met below a node that is met** is met. -/
theorem reach_subset (h : u ∈ t.reach stop) : u.reach stop ⊆ t.reach stop := by
  induction t with
  | node a ts ih =>
    rcases hstop : stop (.node a ts) with _ | _
    · rw [reach_of_not_stop hstop] at h ⊢
      rcases List.mem_cons.mp h with rfl | h
      · rw [reach_of_not_stop hstop]
        exact List.Subset.refl _
      · obtain ⟨t, ht, hu⟩ := mem_reachAll.mp h
        exact fun x hx => List.mem_cons_of_mem _ (mem_reachAll.mpr ⟨t, ht, ih t ht hu hx⟩)
    · rw [reach_of_stop hstop] at h
      exact absurd h List.not_mem_nil

section Nearest

variable (skip stop : Rose α → Bool)

theorem reachAll_perm (h : ∀ t ∈ ts, (t.reach skip).Perm ((t.reach fun n => skip n || stop n) ++
    ((t.reach skip).filter stop).flatMap (near fun n => skip n || stop n))) :
    (reachAll skip ts).Perm (reachAll (fun n => skip n || stop n) ts ++
      ((reachAll skip ts).filter stop).flatMap (near fun n => skip n || stop n)) := by
  induction ts with
  | nil => rw [reachAll_nil, reachAll_nil, List.filter_nil, List.flatMap_nil, List.append_nil]
  | cons t ts ih =>
    have hone := h t List.mem_cons_self
    have hmore := ih fun u hu => h u (List.mem_cons_of_mem _ hu)
    rw [reachAll_cons, reachAll_cons, List.filter_append, List.flatMap_append, List.append_assoc]
    refine (hone.append hmore).trans ?_
    rw [List.append_assoc]
    refine List.Perm.append_left _ ?_
    rw [← List.append_assoc, ← List.append_assoc]
    exact List.perm_append_comm.append_right _

/-- **Each node has at most one nearest**: the nodes that are met are those that are met
before any of the kind, and those that are met below one of the kind before the next. -/
theorem reach_perm (t : Rose α) : (t.reach skip).Perm ((t.reach fun n => skip n || stop n) ++
    ((t.reach skip).filter stop).flatMap (near fun n => skip n || stop n)) := by
  induction t with
  | node a ts ih =>
    have hchildren := reachAll_perm skip stop ih
    rcases hskip : skip (.node a ts) with _ | _
    · rcases hstop : stop (.node a ts) with _ | _
      · rw [reach_of_not_stop hskip, reach_of_not_stop (by rw [hskip, hstop]; rfl), near,
          List.filter_cons_of_neg (by rw [hstop]; exact Bool.false_ne_true)]
        exact hchildren.cons _
      · rw [reach_of_not_stop hskip, reach_of_stop (by rw [hskip, hstop]; rfl), near,
          List.filter_cons_of_pos hstop, List.flatMap_cons, List.nil_append]
        exact hchildren.cons _
    · rw [reach_of_stop hskip, reach_of_stop (by rw [hskip]; rfl), List.filter_nil,
        List.flatMap_nil, List.append_nil]

end Nearest

section Collecting

variable {f : Rose α → List β}

theorem flatMap_reachAll_sublist (h : ∀ t ∈ ts,
    ((t.reach fun n => skip n || stop n).flatMap f).Sublist ((t.reach skip).flatMap f)) :
    ((reachAll (fun n => skip n || stop n) ts).flatMap f).Sublist
      ((reachAll skip ts).flatMap f) := by
  induction ts with
  | nil => exact List.Sublist.refl _
  | cons t ts ih =>
    rw [reachAll_cons, reachAll_cons, List.flatMap_append, List.flatMap_append]
    exact (h t List.mem_cons_self).append (ih fun u hu => h u (List.mem_cons_of_mem _ hu))

/-- A walk that stops earlier collects fewer things, in the same order. -/
theorem flatMap_reach_sublist (t : Rose α) :
    ((t.reach fun n => skip n || stop n).flatMap f).Sublist ((t.reach skip).flatMap f) := by
  induction t with
  | node a ts ih =>
    rcases hskip : skip (.node a ts) with _ | _
    · rw [reach_of_not_stop hskip]
      rcases hstop : stop (.node a ts) with _ | _
      · rw [reach_of_not_stop (by rw [hskip, hstop]; rfl), near, near, List.flatMap_cons,
          List.flatMap_cons]
        exact (List.Sublist.refl _).append (flatMap_reachAll_sublist ih)
      · rw [reach_of_stop (by rw [hskip, hstop]; rfl)]
        exact List.nil_sublist _
    · rw [reach_of_stop (by rw [hskip]; rfl)]
      exact List.nil_sublist _

theorem flatMap_reachAll_eq_iff (h : ∀ t ∈ ts,
    (t.reach fun n => skip n || stop n).flatMap f = (t.reach skip).flatMap f ↔
      ∀ u ∈ t.reach skip, stop u = true → (u.reach skip).flatMap f = []) :
    (reachAll (fun n => skip n || stop n) ts).flatMap f = (reachAll skip ts).flatMap f ↔
      ∀ u ∈ reachAll skip ts, stop u = true → (u.reach skip).flatMap f = [] := by
  induction ts with
  | nil => simp
  | cons t ts ih =>
    have hfirst := h t List.mem_cons_self
    have hrest := ih fun u hu => h u (List.mem_cons_of_mem _ hu)
    simp only [reachAll_cons, List.flatMap_append, List.mem_append, or_imp, forall_and]
    rw [← hfirst, ← hrest]
    refine ⟨fun heq => ?_, fun heq => by rw [heq.1, heq.2]⟩
    -- neither part is longer on the left
    have hone := @flatMap_reach_sublist α β stop skip f t
    have hmore := @flatMap_reachAll_sublist α β stop skip ts f fun u _ => flatMap_reach_sublist u
    have hlength := congrArg List.length heq
    rw [List.length_append, List.length_append] at hlength
    have hle := hone.length_le
    have hle' := hmore.length_le
    exact ⟨hone.eq_of_length (by omega), hmore.eq_of_length (by omega)⟩

/-- **A walk that stops earlier collects the same** exactly when there is nothing to
collect where it stops. -/
theorem flatMap_reach_eq_iff (t : Rose α) :
    (t.reach fun n => skip n || stop n).flatMap f = (t.reach skip).flatMap f ↔
      ∀ u ∈ t.reach skip, stop u = true → (u.reach skip).flatMap f = [] := by
  induction t with
  | node a ts ih =>
    rcases hskip : skip (.node a ts) with _ | _
    · rcases hstop : stop (.node a ts) with _ | _
      · rw [reach_of_not_stop (by rw [hskip, hstop]; rfl), reach_of_not_stop hskip, near, near,
          List.flatMap_cons, List.flatMap_cons, List.append_cancel_left_eq]
        refine (flatMap_reachAll_eq_iff ih).trans ⟨fun h u hu hus => ?_, fun h u hu => ?_⟩
        · rcases List.mem_cons.mp hu with rfl | hu
          · rw [hstop] at hus
            cases hus
          · exact h u hu hus
        · exact h u (List.mem_cons_of_mem _ hu)
      · rw [reach_of_stop (by rw [hskip, hstop]; rfl)]
        constructor
        · intro h u hu _
          rw [List.flatMap_nil, eq_comm, List.flatMap_eq_nil_iff] at h
          exact List.flatMap_eq_nil_iff.mpr fun x hx => h x (reach_subset hu hx)
        · intro h
          have hself : Rose.node a ts ∈ (Rose.node a ts).reach skip := by
            rw [reach_of_not_stop hskip]
            exact List.mem_cons_self
          rw [h _ hself hstop, List.flatMap_nil]
    · rw [reach_of_stop (by rw [hskip]; rfl), reach_of_stop hskip]
      simp

/-- **The same, below a node.** -/
theorem flatMap_near_eq_iff (t : Rose α) :
    (t.near fun n => skip n || stop n).flatMap f = (t.near skip).flatMap f ↔
      ∀ u ∈ reachAll skip t.children, stop u = true → (u.reach skip).flatMap f = [] := by
  rw [near, near, List.flatMap_cons, List.flatMap_cons, List.append_cancel_left_eq]
  exact flatMap_reachAll_eq_iff fun u _ => flatMap_reach_eq_iff u

end Collecting

/-! ### A stack of nodes -/

/-- The number of nodes of a list of trees. -/
def weight : List (Rose α) → ℕ
  | [] => 0
  | .node _ ts :: rest => weight ts + weight rest + 1

theorem weight_append (ts us : List (Rose α)) : weight (ts ++ us) = weight ts + weight us := by
  induction ts with
  | nil => rw [List.nil_append, weight, Nat.zero_add]
  | cons t ts ih =>
    cases t
    rw [List.cons_append, weight, weight, ih]
    omega

section Sweep

variable (visit : σ → Rose α → σ)

/-- Visit what is pending, the next node first, until nothing is: the children of a node
come before what was pending already. -/
def sweep : List (Rose α) → σ → σ
  | [], s => s
  | .node a ts :: rest, s => sweep (ts ++ rest) (visit s (.node a ts))
termination_by pending => weight pending
decreasing_by
  rw [weight_append, weight]
  omega

theorem sweep_append (ts us : List (Rose α)) (s : σ) :
    sweep visit (ts ++ us) s = sweep visit us (sweep visit ts s) := by
  induction ts, s using sweep.induct visit with
  | case1 s => rw [List.nil_append, sweep]
  | case2 a ts rest s ih =>
    rw [List.cons_append, sweep, sweep, ← List.append_assoc, ih]

/-- **The loop visits each node once**, in document order. -/
theorem sweep_eq (t : Rose α) (s : σ) : sweep visit [t] s = t.nodes.foldl visit s := by
  induction t generalizing s with
  | node a ts ih =>
    have hchildren : ∀ s, sweep visit ts s =
        (Rose.reachAll (fun _ => false) ts).foldl visit s := by
      induction ts with
      | nil => exact fun s => by rw [sweep, Rose.reachAll_nil, List.foldl_nil]
      | cons t ts ihs =>
        intro s
        rw [← List.singleton_append, sweep_append, ih t List.mem_cons_self,
          ihs fun u hu => ih u (List.mem_cons_of_mem _ hu), List.singleton_append,
          Rose.reachAll_cons, List.foldl_append]
        rfl
    rw [sweep, List.append_nil, hchildren, Rose.nodes_eq, Rose.near, List.foldl_cons]
    rfl

end Sweep

/-! ### A stack of steps -/

/-- What is pending: a node to enter, or one whose children are done, with what was
decided when it was entered. -/
inductive Step (α γ : Type) : Type
  | enter (t : Rose α) : Step α γ
  | leave (info : γ) : Step α γ

/-- The number of steps that are still to be made, at most. -/
def Step.weight : List (Step α γ) → ℕ
  | [] => 0
  | .enter t :: rest => 2 * Rose.weight [t] + Step.weight rest
  | .leave _ :: rest => Step.weight rest + 1

theorem Step.weight_append (p q : List (Step α γ)) :
    Step.weight (p ++ q) = Step.weight p + Step.weight q := by
  induction p with
  | nil => rw [List.nil_append, Step.weight, Nat.zero_add]
  | cons step p ih => cases step <;> rw [List.cons_append, Step.weight, Step.weight, ih] <;> omega

theorem Step.weight_map_enter (ts : List (Rose α)) :
    Step.weight (ts.map (.enter : Rose α → Step α γ)) = 2 * Rose.weight ts := by
  induction ts with
  | nil => rw [List.map_nil, Step.weight, Rose.weight]
  | cons t ts ih =>
    have hcons : Rose.weight (t :: ts) = Rose.weight [t] + Rose.weight ts :=
      Rose.weight_append [t] ts
    rw [List.map_cons, Step.weight, ih, hcons]
    omega

section Run

variable (enter : σ → Rose α → σ × Option γ) (leave : σ → γ → σ)

/-- Make the steps that are pending until none is. Entering a node says what is to be
known when it is left, or that it is not gone into, and then it is not left either. -/
def run : List (Step α γ) → σ → σ
  | [], s => s
  | .leave info :: rest, s => run rest (leave s info)
  | .enter t :: rest, s =>
    match enter s t with
    | (s', none) => run rest s'
    | (s', some info) => run (t.children.map .enter ++ .leave info :: rest) s'
termination_by pending => Step.weight pending
decreasing_by
  · rw [Step.weight]
    omega
  · cases t
    rw [Step.weight, Rose.weight]
    omega
  · cases t
    rw [Step.weight_append, Step.weight_map_enter, Step.weight, Step.weight, Rose.weight,
      Rose.weight]
    simp only [Rose.children]
    omega

mutual

/-- **What the walk does at a node**: enter it, do the same at its children in order, and
leave it. -/
def visit : Rose α → σ → σ
  | .node a ts, s =>
    match enter s (.node a ts) with
    | (s', none) => s'
    | (s', some info) => leave (visitAll ts s') info

def visitAll : List (Rose α) → σ → σ
  | [], s => s
  | t :: ts, s => visitAll ts (visit t s)

end

theorem run_enter (t : Rose α) (rest : List (Step α γ)) (s : σ) :
    run enter leave (.enter t :: rest) s = run enter leave rest (visit enter leave t s) := by
  induction t generalizing rest s with
  | node a ts ih =>
    have hchildren : ∀ rest s, run enter leave (ts.map .enter ++ rest) s =
        run enter leave rest (visitAll enter leave ts s) := by
      induction ts with
      | nil => exact fun rest s => by rw [List.map_nil, List.nil_append, visitAll]
      | cons t ts ihs =>
        intro rest s
        rw [List.map_cons, List.cons_append, ih t List.mem_cons_self,
          ihs fun u hu => ih u (List.mem_cons_of_mem _ hu), visitAll]
    rw [run, visit]
    rcases enter s (.node a ts) with ⟨s', _ | info⟩
    · rfl
    · dsimp only [Rose.children]
      rw [hchildren, run]

/-- **The loop with a stack is the recursion.** -/
theorem run_eq (t : Rose α) (s : σ) :
    run enter leave [.enter t] s = visit enter leave t s := by
  rw [run_enter, run]

end Run

end Rose

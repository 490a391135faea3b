import Mathlib
import Mutiny.Lib.Except

/- A depth-first walk with a stack and a set of what was seen.

   `next` lists the successors of a node and may fail; the nodes it succeeds on
   lie in a finite domain, which is why the walk ends. What a walk that returns
   has seen contains the roots and is closed under `next` (`walk_closed`), and was
   reached from them (`walk_reached`). `reach` is the walk whose successors stay
   in the domain, so that nothing fails: it finds exactly what can be reached.
   `deepWalk` counts how deep it is and fails beyond a limit. -/
namespace Mutiny.Lib
open List (mem_cons mem_cons_of_mem mem_cons_self)

variable {α ε : Type} [DecidableEq α] {next : α → Except ε (List α)} {domain : List α} {a : α}

/-- The nodes of the domain not seen. -/
def unseen (domain seen : List α) : Finset α := domain.toFinset \ seen.toFinset

theorem unseen_cons (domain seen : List α) (a : α) : unseen domain (a :: seen) = (unseen domain seen).erase a := by
  ext b
  simp only [unseen, List.toFinset_cons, Finset.mem_sdiff, Finset.mem_insert, Finset.mem_erase]
  tauto

theorem mem_unseen {seen : List α} : a ∈ unseen domain seen ↔ a ∈ domain ∧ a ∉ seen := by
  simp [unseen]

/-- The nodes reachable from a stack of nodes, added to those seen before. Nodes on
    the stack that were seen are popped and skipped. -/
def walk (next : α → Except ε (List α)) (hdomain : ∀ {a es}, next a = .ok es → a ∈ domain) (seen stack : List α) :
    Except ε (List α) :=
  match hstack : stack.dropWhile (· ∈ seen) with
  | [] => .ok seen
  | a :: rest =>
    match hnext : next a with
    | .error e => .error e
    | .ok es => walk next hdomain (a :: seen) (es ++ rest)
  termination_by (unseen domain seen).card
  decreasing_by
    rw [unseen_cons]
    refine Finset.card_erase_lt_of_mem (mem_unseen.2 ⟨hdomain hnext, ?_⟩)
    have hne : stack.dropWhile (· ∈ seen) ≠ [] := by simp [hstack]
    have hhead := List.head_dropWhile_not (fun a => decide (a ∈ seen)) hne
    simpa [hstack] using hhead

variable {hdomain : ∀ {a es}, next a = .ok es → a ∈ domain} {seen stack out : List α}

theorem mem_of_dropWhile {rest : List α} (h : stack.dropWhile (· ∈ seen) = rest) (ha : a ∈ stack) :
    a ∈ seen ∨ a ∈ rest := by
  rw [← List.takeWhile_append_dropWhile (p := fun b => decide (b ∈ seen)) (l := stack)] at ha
  rcases List.mem_append.1 ha with ha | ha
  · exact Or.inl (by simpa using List.mem_takeWhile_imp ha)
  · exact Or.inr (h ▸ ha)

theorem walk_closed (h : walk next hdomain seen stack = .ok out) :
    (∀ a ∈ seen, a ∈ out) ∧ (∀ a ∈ stack, a ∈ out) ∧
      ∀ a ∈ out, a ∉ seen → ∃ es, next a = .ok es ∧ ∀ b ∈ es, b ∈ out := by
  fun_induction walk next hdomain seen stack with
  | case1 seen stack hstack =>
    cases h
    refine ⟨fun a ha => ha, ?_, fun a ha hnot => absurd ha hnot⟩
    intro a ha
    rcases mem_of_dropWhile hstack ha with hseen | hnil
    · exact hseen
    · cases hnil
  | case2 => cases h
  | case3 seen stack a rest hstack es hnext ih =>
    obtain ⟨hold, hrest, hclosed⟩ := ih h
    rw [List.forall_mem_cons] at hold
    rw [List.forall_mem_append] at hrest
    refine ⟨hold.2, ?_, ?_⟩
    · intro b hb
      rcases mem_of_dropWhile hstack hb with hseen | hb
      · exact hold.2 b hseen
      · rcases List.mem_cons.1 hb with rfl | hb
        · exact hold.1
        · exact hrest.2 b hb
    · intro b hb hnot
      by_cases hba : b = a
      · subst hba
        exact ⟨es, hnext, hrest.1⟩
      · exact hclosed b hb (by simp [hba, hnot])

theorem walk_reached (h : walk next hdomain seen stack = .ok out) :
    ∀ b ∈ out, b ∈ seen ∨ ∃ a ∈ stack, Relation.ReflTransGen (fun x y => ∃ es, next x = .ok es ∧ y ∈ es) a b := by
  fun_induction walk next hdomain seen stack with
  | case1 seen stack hstack =>
    cases h
    exact fun b hb => .inl hb
  | case2 => cases h
  | case3 seen stack a rest hstack es hnext ih =>
    have hsub : ∀ c ∈ a :: rest, c ∈ stack := fun c hc => (List.dropWhile_sublist _).subset (hstack ▸ hc)
    intro b hb
    rcases ih h b hb with hb | ⟨c, hc, hreach⟩
    · rcases List.mem_cons.1 hb with rfl | hb
      · exact .inr ⟨b, hsub b (by simp), .refl⟩
      · exact .inl hb
    · rcases List.mem_append.1 hc with hc | hc
      · exact .inr ⟨a, hsub a (by simp), .head ⟨es, hnext, hc⟩ hreach⟩
      · exact .inr ⟨c, hsub c (mem_cons_of_mem a hc), hreach⟩

def inDomain (next : α → List α) (domain : List α) (a : α) : Except α (List α) :=
  if a ∈ domain then .ok (next a) else .error a

variable {next : α → List α}

theorem mem_of_inDomain {es : List α} (h : inDomain next domain a = .ok es) : a ∈ domain := by
  by_contra hnot
  rw [inDomain, if_neg hnot] at h
  cases h

/-- Everything reachable from the stack; the domain is closed and holds the stack. -/
def reach (next : α → List α) (domain stack : List α) : List α :=
  match walk (inDomain next domain) mem_of_inDomain [] stack with
  | .ok out => out
  | .error _ => []

theorem walk_inDomain_ok (hclosed : ∀ a ∈ domain, ∀ b ∈ next a, b ∈ domain) (seen : List α)
    (hstack : ∀ a ∈ stack, a ∈ domain) : ∃ out, walk (inDomain next domain) mem_of_inDomain seen stack = .ok out := by
  fun_induction walk (inDomain next domain) mem_of_inDomain seen stack with
  | case1 seen stack hnil => exact ⟨seen, rfl⟩
  | case2 seen stack a rest hrest e hnext =>
    have ha : a ∈ domain := hstack a ((List.dropWhile_sublist _).subset (hrest ▸ mem_cons_self))
    rw [inDomain, if_pos ha] at hnext
    cases hnext
  | case3 seen stack a rest hrest es hnext ih =>
    have hsub : ∀ c ∈ a :: rest, c ∈ domain := fun c hc => hstack c ((List.dropWhile_sublist _).subset (hrest ▸ hc))
    have ha := hsub a (by simp)
    rw [inDomain, if_pos ha] at hnext
    cases hnext
    refine ih (fun c hc => ?_)
    rcases List.mem_append.1 hc with hc | hc
    · exact hclosed a ha c hc
    · exact hsub c (mem_cons_of_mem a hc)

theorem mem_reach (hclosed : ∀ a ∈ domain, ∀ b ∈ next a, b ∈ domain) (hstack : ∀ a ∈ stack, a ∈ domain) {b : α} :
    b ∈ reach next domain stack ↔ ∃ a ∈ stack, Relation.ReflTransGen (fun x y => y ∈ next x) a b := by
  obtain ⟨out, hout⟩ := walk_inDomain_ok hclosed [] hstack
  have hstep : ∀ {x y}, (∃ es, inDomain next domain x = .ok es ∧ y ∈ es) → y ∈ next x := by
    rintro x y ⟨es, hes, hy⟩
    rw [inDomain, if_pos (mem_of_inDomain hes)] at hes
    cases hes
    exact hy
  obtain ⟨-, hroots, hall⟩ := walk_closed hout
  rw [reach, hout]
  constructor
  · intro hb
    rcases walk_reached hout b hb with hb | ⟨a, ha, hreach⟩
    · cases hb
    · exact ⟨a, ha, hreach.lift id (fun _ _ => hstep)⟩
  · rintro ⟨a, ha, hreach⟩
    induction hreach with
    | refl => exact hroots a ha
    | tail _ hy ih =>
      obtain ⟨es, hes, hsub⟩ := hall _ ih (by simp)
      refine hsub _ ?_
      rw [inDomain, if_pos (mem_of_inDomain hes)] at hes
      cases hes
      exact hy

/-! A walk with a limit. -/

/-- What is left to do at the nodes not seen. -/
def workLeft (next : α → List α) (domain seen : List α) : Nat := ∑ a ∈ unseen domain seen, ((next a).length + 1)

theorem workLeft_cons_le (next : α → List α) (domain seen : List α) (a : α) :
    workLeft next domain (a :: seen) ≤ workLeft next domain seen := by
  rw [workLeft, unseen_cons]
  exact Finset.sum_le_sum_of_subset (Finset.erase_subset a _)

theorem workLeft_cons_lt {domain seen : List α} (ha : a ∈ domain) (hnot : a ∉ seen) :
    workLeft next domain (a :: seen) + (next a).length < workLeft next domain seen := by
  have hadd := Finset.add_sum_erase _ (fun a => (next a).length + 1) (mem_unseen.2 ⟨ha, hnot⟩)
  rw [workLeft, workLeft, unseen_cons, ← hadd]
  omega

/-- A depth-first walk that fails when it meets a node below the limit, seen or not;
    the last successor comes first. -/
def deepWalk (next : α → List α) (hdomain : ∀ {a}, next a ≠ [] → a ∈ domain) (limit : Nat) (seen : List α) :
    List (α × Nat) → Except Nat (List α)
  | [] => .ok seen
  | (a, depth) :: stack =>
    if limit < depth then .error limit
    else if a ∈ seen then deepWalk next hdomain limit seen stack
    else deepWalk next hdomain limit (a :: seen) ((next a).reverse.map (fun b => (b, depth + 1)) ++ stack)
  termination_by stack => workLeft next domain seen + stack.length
  decreasing_by
    · simp
    · rename_i hnot
      simp only [List.length_append, List.length_map, List.length_reverse, List.length_cons]
      by_cases hnil : next a = []
      · have hle := workLeft_cons_le next domain seen a
        rw [hnil, List.length_nil]
        omega
      · have hlt : workLeft next domain (a :: seen) + (next a).length < workLeft next domain seen :=
          workLeft_cons_lt (hdomain hnil) hnot
        omega

variable {next : α → List α} {hdomain : ∀ {a}, next a ≠ [] → a ∈ domain} {limit : Nat} {seen out : List α}
  {stack : List (α × Nat)}

theorem deepWalk_closed (h : deepWalk next hdomain limit seen stack = .ok out) :
    (∀ a ∈ seen, a ∈ out) ∧ (∀ e ∈ stack, e.1 ∈ out) ∧ ∀ a ∈ out, a ∉ seen → ∀ b ∈ next a, b ∈ out := by
  fun_induction deepWalk next hdomain limit seen stack with
  | case1 seen =>
    cases h
    exact ⟨fun a ha => ha, by simp, fun a ha hnot => absurd ha hnot⟩
  | case2 => cases h
  | case3 seen a depth stack hdepth hseen ih =>
    obtain ⟨hold, hrest, hclosed⟩ := ih h
    exact ⟨hold, List.forall_mem_cons.2 ⟨hold a hseen, hrest⟩, hclosed⟩
  | case4 seen a depth stack hdepth hnot ih =>
    obtain ⟨hold, hrest, hclosed⟩ := ih h
    rw [List.forall_mem_cons] at hold
    rw [List.forall_mem_append] at hrest
    refine ⟨hold.2, List.forall_mem_cons.2 ⟨hold.1, hrest.2⟩, fun c hc hcnot b hb => ?_⟩
    by_cases hca : c = a
    · subst hca
      exact hrest.1 (b, depth + 1) (List.mem_map.2 ⟨b, List.mem_reverse.2 hb, rfl⟩)
    · exact hclosed c hc (by simp [hca, hcnot]) b hb

theorem deepWalk_reached (h : deepWalk next hdomain limit seen stack = .ok out) :
    ∀ b ∈ out, b ∈ seen ∨ ∃ e ∈ stack, Relation.ReflTransGen (fun x y => y ∈ next x) e.1 b := by
  fun_induction deepWalk next hdomain limit seen stack with
  | case1 seen =>
    cases h
    exact fun b hb => .inl hb
  | case2 => cases h
  | case3 seen a depth stack hdepth hseen ih =>
    intro b hb
    exact (ih h b hb).imp_right (fun ⟨e, he, hreach⟩ => ⟨e, mem_cons_of_mem _ he, hreach⟩)
  | case4 seen a depth stack hdepth hnot ih =>
    intro b hb
    rcases ih h b hb with hb | ⟨e, he, hreach⟩
    · rcases List.mem_cons.1 hb with rfl | hb
      · exact .inr ⟨(b, depth), mem_cons_self, .refl⟩
      · exact .inl hb
    · rcases List.mem_append.1 he with he | he
      · obtain ⟨c, hc, rfl⟩ := List.mem_map.1 he
        exact .inr ⟨(a, depth), mem_cons_self, .head (List.mem_reverse.1 hc) hreach⟩
      · exact .inr ⟨e, mem_cons_of_mem _ he, hreach⟩

/-- A walk that fails has met a chain that goes below the limit. -/
theorem deepWalk_error {d : Nat} (h : deepWalk next hdomain limit seen stack = .error d) : d = limit ∧
      ∃ e ∈ stack, ∃ rest, (e.1 :: rest).IsChain (fun x y => y ∈ next x) ∧ limit < e.2 + rest.length := by
  fun_induction deepWalk next hdomain limit seen stack with
  | case1 => cases h
  | case2 seen a depth stack hdepth =>
    cases h
    exact ⟨rfl, _, mem_cons_self, [], .singleton _, hdepth⟩
  | case3 seen a depth stack hdepth hseen ih =>
    obtain ⟨hd, e, he, hrest⟩ := ih h
    exact ⟨hd, e, mem_cons_of_mem _ he, hrest⟩
  | case4 seen a depth stack hdepth hnot ih =>
    obtain ⟨hd, e, he, rest, hchain, hlt⟩ := ih h
    rcases List.mem_append.1 he with he | he
    · -- a child of the node: the chain starts one step above
      obtain ⟨b, hb, rfl⟩ := List.mem_map.1 he
      refine ⟨hd, _, mem_cons_self, b :: rest, .cons_cons (List.mem_reverse.1 hb) hchain, ?_⟩
      rw [List.length_cons]
      omega
    · exact ⟨hd, e, mem_cons_of_mem _ he, rest, hchain, hlt⟩

/-- A walk that stays within the limit finds what can be reached. -/
theorem mem_deepWalk (h : deepWalk next hdomain limit [] stack = .ok out) {b : α} :
    b ∈ out ↔ ∃ e ∈ stack, Relation.ReflTransGen (fun x y => y ∈ next x) e.1 b := by
  obtain ⟨-, hroots, hclosed⟩ := deepWalk_closed h
  constructor
  · intro hb
    exact (deepWalk_reached h b hb).resolve_left (by simp)
  · rintro ⟨e, he, hreach⟩
    induction hreach with
    | refl => exact hroots e he
    | tail _ hstep ih => exact hclosed _ ih (by simp) _ hstep

end Mutiny.Lib

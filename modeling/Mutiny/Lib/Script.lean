import Mutiny.Lib.Except

/- Computations that leave effects behind.

   A `Script` is what a computation does to the outside, in order, and how it
   ends: an effect that comes before an error has happened all the same. `perform`
   carries effects out one after another and stops at the first that fails, so a
   crash is a shorter list of effects. -/
namespace Mutiny.Lib

theorem forM_ok {α ε : Type} {f : α → Except ε Unit} {xs : List α} : xs.forM f = .ok () ↔ ∀ x ∈ xs, f x = .ok () := by
  induction xs with
  | nil => simp [List.forM]
  | cons x xs ih =>
    have hcons : (x :: xs).forM f = (f x >>= fun _ => xs.forM f) := rfl
    rw [hcons, bind_ok, List.forall_mem_cons, ← ih]
    constructor
    · rintro ⟨u, hx, hxs⟩
      exact ⟨hx, hxs⟩
    · rintro ⟨hx, hxs⟩
      exact ⟨(), hx, hxs⟩

/-- The effects of a computation, in order, and how it ends. -/
structure Script (F ε α : Type) where
  effects : List F
  result : Except ε α

namespace Script

variable {F ε α β σ : Type}

protected def pure (a : α) : Script F ε α := ⟨[], .ok a⟩

protected def bind (x : Script F ε α) (f : α → Script F ε β) : Script F ε β :=
  match x.result with
  | .ok a => ⟨x.effects ++ (f a).effects, (f a).result⟩
  | .error e => ⟨x.effects, .error e⟩

instance : Monad (Script F ε) where
  pure := Script.pure
  bind := Script.bind

def emit (f : F) : Script F ε Unit := ⟨[f], .ok ()⟩

def emitAll (fs : List F) : Script F ε Unit := ⟨fs, .ok ()⟩

def lift (x : Except ε α) : Script F ε α := ⟨[], x⟩

/-- One script after another, numbered from `n`; a script that gives `y` takes `used y` numbers. -/
def mapFrom (used : β → Nat) (f : Nat → α → Script F ε β) : Nat → List α → Script F ε (List β)
  | _, [] => pure []
  | n, x :: xs => do
    let y ← f n x
    let ys ← mapFrom used f (n + used y) xs
    pure (y :: ys)

/-- Carry effects out in order, up to the first that fails. -/
def perform (exec : F → σ → Except ε σ) : List F → σ → σ × Except ε Unit
  | [], s => (s, .ok ())
  | f :: fs, s =>
    match exec f s with
    | .ok s' => perform exec fs s'
    | .error e => (s, .error e)

def run (exec : F → σ → Except ε σ) (x : Script F ε α) (s : σ) : σ × Except ε α :=
  match perform exec x.effects s with
  | (s', .ok _) => (s', x.result)
  | (s', .error e) => (s', .error e)

/-! Taking scripts apart. -/

@[simp] theorem pure_effects (a : α) : (pure a : Script F ε α).effects = [] := rfl
@[simp] theorem pure_result (a : α) : (pure a : Script F ε α).result = .ok a := rfl

theorem bind_def (x : Script F ε α) (f : α → Script F ε β) : (x >>= f) = x.bind f := rfl

variable {x : Script F ε α} {f : α → Script F ε β}

theorem bind_result_ok {b : β} : (x >>= f).result = .ok b ↔ ∃ a, x.result = .ok a ∧ (f a).result = .ok b := by
  rw [bind_def, Script.bind]
  cases hx : x.result with
  | error e => simp
  | ok a => simp

theorem bind_effects_ok {a : α} (h : x.result = .ok a) : (x >>= f).effects = x.effects ++ (f a).effects := by
  rw [bind_def, Script.bind, h]

theorem bind_effects_error {e : ε} (h : x.result = .error e) : (x >>= f).effects = x.effects := by
  rw [bind_def, Script.bind, h]

theorem bind_pure_effects (x : Script F ε α) (g : α → β) : (x >>= fun a => pure (g a)).effects = x.effects := by
  cases hx : x.result with
  | error e => rw [bind_effects_error hx]
  | ok a => rw [bind_effects_ok hx, pure_effects, List.append_nil]

theorem mem_bind_effects {g : α → Script F ε β} {f : F} (h : f ∈ (x >>= g).effects) :
    f ∈ x.effects ∨ ∃ a, x.result = .ok a ∧ f ∈ (g a).effects := by
  cases hx : x.result with
  | error e =>
    rw [bind_effects_error hx] at h
    exact .inl h
  | ok a =>
    rw [bind_effects_ok hx] at h
    rcases List.mem_append.1 h with h | h
    · exact .inl h
    · exact .inr ⟨a, rfl, h⟩

/-! What a script does and how it ends. -/

section Meets

variable {P : List F → Except ε α → Prop} {Q : List F → α → Prop}

/-- What a script does and how it ends satisfy `P`. -/
def Meets (P : List F → Except ε α → Prop) (x : Script F ε α) : Prop := P x.effects x.result

/-- A script that fails has done nothing. -/
def Clean (Q : List F → α → Prop) (x : Script F ε α) : Prop := x.Meets (fun fs => Sat (Q fs) (fun _ => fs = []))

variable {f : β → Script F ε α}

theorem Meets.lift_bind {x : Except ε β} (herror : ∀ e, P [] (.error e)) (h : ∀ b, x = .ok b → Meets P (f b)) :
    Meets P (lift x >>= f) := by
  cases x with
  | error e => exact herror e
  | ok b => exact h b rfl

theorem Clean.lift_bind {x : Except ε β} (h : ∀ b, x = .ok b → Clean Q (f b)) : Clean Q (lift x >>= f) :=
  Meets.lift_bind (fun _ => rfl) h

theorem Clean.bind_pure {x : Script F ε β} {g : β → α} (h : Clean (fun fs b => Q fs (g b)) x) :
    Clean Q (x >>= fun b => pure (g b)) := by
  unfold Clean Meets at h ⊢
  rw [bind_pure_effects, bind_def, Script.bind]
  cases hx : x.result <;> rwa [hx] at h

theorem Clean.mono {R : List F → α → Prop} (h : Clean Q x) (himp : ∀ fs a, Q fs a → R fs a) : Clean R x :=
  Sat.mono h (himp x.effects)

theorem Clean.of_ok {a : α} (h : Clean Q x) (ha : x.result = .ok a) : Q x.effects a :=
  Sat.of_ok h ha

theorem Clean.of_error {e : ε} (h : Clean Q x) (he : x.result = .error e) : x.effects = [] := by
  unfold Clean Meets at h
  rwa [he] at h

end Meets

/-! Numbered scripts. -/

section MapFrom

variable {used : β → Nat} {f : Nat → α → Script F ε β} {ys : List β} {n : Nat}

theorem mapFrom_cons_ok {x : α} {xs : List α} : (mapFrom used f n (x :: xs)).result = .ok ys ↔
      ∃ y zs, (f n x).result = .ok y ∧ (mapFrom used f (n + used y) xs).result = .ok zs ∧ ys = y :: zs := by
  rw [mapFrom]
  simp only [bind_result_ok, pure_result, Except.ok.injEq]
  constructor
  · rintro ⟨y, hy, zs, hzs, rfl⟩
    exact ⟨y, zs, hy, hzs, rfl⟩
  · rintro ⟨y, zs, hy, hzs, rfl⟩
    exact ⟨y, hy, zs, hzs, rfl⟩

/-- Each result is that of its own script, under some number. -/
theorem mapFrom_forall₂ {xs : List α} (h : (mapFrom used f n xs).result = .ok ys) :
    List.Forall₂ (fun x y => ∃ k, (f k x).result = .ok y) xs ys := by
  induction xs generalizing n ys with
  | nil =>
    rw [mapFrom, pure_result, Except.ok.injEq] at h
    subst h
    exact .nil
  | cons x xs ih =>
    obtain ⟨y, zs, hy, hzs, rfl⟩ := mapFrom_cons_ok.1 h
    exact .cons ⟨n, hy⟩ (ih hzs)

theorem mapFrom_effects {out : β → List F} (hout : ∀ k x y, (f k x).result = .ok y → (f k x).effects = out y)
    {xs : List α} (h : (mapFrom used f n xs).result = .ok ys) : (mapFrom used f n xs).effects = ys.flatMap out := by
  induction xs generalizing n ys with
  | nil =>
    rw [mapFrom, pure_result, Except.ok.injEq] at h
    subst h
    rfl
  | cons x xs ih =>
    obtain ⟨y, zs, hy, hzs, rfl⟩ := mapFrom_cons_ok.1 h
    rw [mapFrom, bind_effects_ok hy, bind_effects_ok hzs, pure_effects, List.append_nil, hout n x y hy, ih hzs,
      List.flatMap_cons]

theorem of_mem_mapFrom_effects {xs : List α} {e : F} (h : e ∈ (mapFrom used f n xs).effects) :
    ∃ k, ∃ x ∈ xs, e ∈ (f k x).effects := by
  induction xs generalizing n with
  | nil => exact absurd h List.not_mem_nil
  | cons x xs ih =>
    rw [mapFrom] at h
    rcases mem_bind_effects h with h | ⟨y, -, h⟩
    · exact ⟨n, x, List.mem_cons_self, h⟩
    · rcases mem_bind_effects h with h | ⟨zs, -, h⟩
      · obtain ⟨k, z, hz, he⟩ := ih h
        exact ⟨k, z, List.mem_cons_of_mem x hz, he⟩
      · exact absurd h List.not_mem_nil

/-- Scripts that are marked with the number they took are marked with rising numbers. -/
theorem mapFrom_rising {mark : β → Option Nat}
    (hmark : ∀ k x y m, (f k x).result = .ok y → mark y = some m → m = k ∧ 0 < used y) {xs : List α}
    (h : (mapFrom used f n xs).result = .ok ys) :
    (∀ m ∈ ys.filterMap mark, n ≤ m) ∧ (ys.filterMap mark).Pairwise (· < ·) := by
  induction xs generalizing n ys with
  | nil =>
    rw [mapFrom, pure_result, Except.ok.injEq] at h
    subst h
    simp
  | cons x xs ih =>
    obtain ⟨y, zs, hy, hzs, rfl⟩ := mapFrom_cons_ok.1 h
    obtain ⟨hlow, hrise⟩ := ih hzs
    cases hm : mark y with
    | none =>
      rw [List.filterMap_cons_none hm]
      exact ⟨fun m hmem => Nat.le_trans (Nat.le_add_right n _) (hlow m hmem), hrise⟩
    | some m =>
      obtain ⟨rfl, hpos⟩ := hmark n x y m hy hm
      rw [List.filterMap_cons_some hm]
      refine ⟨?_, List.pairwise_cons.2 ⟨?_, hrise⟩⟩
      · intro k hk
        rcases List.mem_cons.1 hk with rfl | hk
        · exact Nat.le_refl k
        · exact Nat.le_trans (Nat.le_add_right m _) (hlow k hk)
      · intro k hk
        have := hlow k hk
        omega

end MapFrom

/-! Carrying effects out. -/

variable {exec : F → σ → Except ε σ}

theorem perform_append (fs gs : List F) (s : σ) :
    perform exec (fs ++ gs) s =
      match perform exec fs s with
      | (s', .ok _) => perform exec gs s'
      | (s', .error e) => (s', .error e) := by
  induction fs generalizing s with
  | nil => rfl
  | cons f fs ih =>
    rw [List.cons_append, perform, perform]
    cases exec f s with
    | ok s' => exact ih s'
    | error e => rfl

theorem run_fst (x : Script F ε α) (s : σ) : (run exec x s).1 = (perform exec x.effects s).1 := by
  rw [run]
  rcases perform exec x.effects s with ⟨m, _ | _⟩ <;> rfl

end Script

end Mutiny.Lib

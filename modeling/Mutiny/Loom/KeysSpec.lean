import Mutiny.Lib.Run
import Mutiny.Loom.Keys

/- What holds along a sequence of rotations.

   A step moves roots along and adds staged ones, and never takes one out or
   changes its id, role, public key or generation (`Moved`, `Rotation.apply_ok`).
   So a root that verifies goes on verifying until it is revoked, and a revoked
   one stays revoked.

   Two laws need more than the code checks. A role whose active root was retired
   or revoked accepts an older staged root next, so the generation that signs goes
   down; and a public key that was revoked under one id can be staged and activated
   under another (`rotation_goes_back` has a run of each). With one
   id to a public key in a role, and activations above every root that is not
   staged, the laws hold over all runs (`rotation_laws`). -/
namespace Mutiny.Loom
open Mutiny.Lib List

variable {C : Curve} {r r' : TrustRootRegister} {role : KeyRole} {keyId : String}

theorem require_ok {b : Bool} {e : KeyError} {u : Unit} : require b e = .ok u ↔ b = true := by
  cases b with
  | false | true => simp [require]

/-! Valid registers. -/

variable {seen : List (KeyRole × String)} {roots : List TrustRoot} {b : TrustRoot} {a : TrustRoot} {root : TrustRoot}

def Valid (C : Curve) (r : TrustRootRegister) : Prop := r.validate C = .ok ()

instance (C : Curve) (r : TrustRootRegister) : Decidable (Valid C r) := inferInstanceAs (Decidable (_ = _))

theorem validated_ok (h : r.validated C = .ok r') : r' = r ∧ Valid C r := by
  obtain ⟨_, hvalid, heq⟩ := bind_ok.1 h
  exact ⟨(Except.ok.inj heq).symm, hvalid⟩

theorem Valid.one_active (h : Valid C r) (role : KeyRole) : (r.activeIn role).length ≤ 1 := by
  obtain ⟨_, -, h⟩ := bind_ok.1 h
  obtain ⟨_, -, h⟩ := bind_ok.1 h
  obtain ⟨_, -, h⟩ := bind_ok.1 h
  obtain ⟨_, hactor, h⟩ := bind_ok.1 h
  obtain ⟨_, hrelease, hbackup⟩ := bind_ok.1 h
  cases role with
  | actorGovernance => exact of_decide_eq_true (require_ok.1 hactor)
  | release => exact of_decide_eq_true (require_ok.1 hrelease)
  | backupRoot => exact of_decide_eq_true (require_ok.1 hbackup)

theorem not_mem_of_validateRoots (h : validateRoots C seen roots = .ok ()) (hroot : root ∈ roots) :
    (root.role, root.keyId) ∉ seen := by
  induction roots generalizing seen with
  | nil => cases hroot
  | cons first roots ih =>
    obtain ⟨_, hfirst, hrest⟩ := bind_ok.1 h
    rcases mem_cons.1 hroot with rfl | hroot
    · obtain ⟨_, -, hfirst⟩ := bind_ok.1 hfirst
      obtain ⟨_, hseen, -⟩ := bind_ok.1 hfirst
      exact of_decide_eq_true (require_ok.1 hseen)
    · exact fun hmem => ih hrest hroot (mem_cons_of_mem _ hmem)

theorem unique_of_validateRoots (h : validateRoots C seen roots = .ok ()) :
    roots.Pairwise (fun a b => (a.role, a.keyId) ≠ (b.role, b.keyId)) := by
  induction roots generalizing seen with
  | nil => exact .nil
  | cons first roots ih =>
    obtain ⟨_, -, hrest⟩ := bind_ok.1 h
    refine pairwise_cons.2 ⟨fun root hroot heq => ?_, ih hrest⟩
    exact not_mem_of_validateRoots hrest hroot (by rw [← heq]; exact mem_cons_self)

theorem Valid.unique (h : Valid C r) (ha : a ∈ r.roots) (hb : b ∈ r.roots) (hrole : a.role = b.role)
    (hid : a.keyId = b.keyId) : a = b := by
  obtain ⟨_, -, h⟩ := bind_ok.1 h
  obtain ⟨_, -, h⟩ := bind_ok.1 h
  obtain ⟨_, hroots, -⟩ := bind_ok.1 h
  by_contra hne
  have hsymm : Std.Symm (fun a b : TrustRoot => (a.role, a.keyId) ≠ (b.role, b.keyId)) := ⟨fun _ _ h => h.symm⟩
  refine (unique_of_validateRoots hroots).forall ha hb hne ?_
  rw [hrole, hid]

theorem mem_inRole : root ∈ r.inRole role ↔ root ∈ r.roots ∧ root.role = role := by
  simp [TrustRootRegister.inRole]

theorem findRoot_ok (h : findRoot r role keyId = .ok root) :
    root ∈ r.roots ∧ root.role = role ∧ root.keyId = keyId := by
  unfold findRoot at h
  cases hfind : r.find role keyId with
  | none =>
    rw [hfind] at h
    cases h
  | some found =>
    rw [hfind] at h
    cases h
    have hmem := mem_inRole.1 (mem_of_find?_eq_some hfind)
    exact ⟨hmem.1, hmem.2, by simpa using List.find?_some hfind⟩

/-! One step. -/

variable {call : Rotation}

/-- A root before and after a step: who it is stays, and its status goes forward. -/
structure Moved (a b : TrustRoot) : Prop where
  keyId : b.keyId = a.keyId
  role : b.role = a.role
  publicKey : b.publicKey = a.publicKey
  algorithm : b.algorithm = a.algorithm
  generation : b.generation = a.generation
  status : b.status = a.status ∨ a.status = .pending ∧ b.status = .active ∨ a.status = .active ∧ b.status = .retired ∨
    b.status = .revoked

theorem Moved.refl (a : TrustRoot) : Moved a a := ⟨rfl, rfl, rfl, rfl, rfl, .inl rfl⟩

inductive Stepped (r : TrustRootRegister) : Rotation → TrustRootRegister → Prop
  | expand (new : TrustRoot) :
      Stepped r (.expand new) { r with roots := r.roots ++ [{ new with status := .pending, revocationReason := none }] }
  | activate (role : KeyRole) (keyId : String) (candidate : TrustRoot)
      (hfind : candidate ∈ r.roots ∧ candidate.role = role ∧ candidate.keyId = keyId)
      (hpending : candidate.status = .pending) :
      Stepped r (.activate role keyId) { r with roots := r.roots.map (activateRoot role keyId) }
  | retire (role : KeyRole) (keyId : String) (candidate : TrustRoot)
      (hfind : candidate ∈ r.roots ∧ candidate.role = role ∧ candidate.keyId = keyId)
      (hactive : candidate.status = .active) :
      Stepped r (.retire role keyId) { r with roots := r.roots.map (retireRoot role keyId) }
  | revoke (role : KeyRole) (keyId reason : String) (allowSeal : Bool) (candidate : TrustRoot)
      (hfind : candidate ∈ r.roots ∧ candidate.role = role ∧ candidate.keyId = keyId) :
      Stepped r (.revoke role keyId reason allowSeal) { r with roots := r.roots.map (revokeRoot role keyId reason) }

theorem Rotation.apply_ok (h : call.apply C r = .ok r') : Stepped r call r' ∧ Valid C r' := by
  cases call with
  | expand new =>
    obtain ⟨_, -, h⟩ := bind_ok.1 h
    obtain ⟨_, -, h⟩ := bind_ok.1 h
    obtain ⟨rfl, hvalid⟩ := validated_ok h
    exact ⟨.expand new, hvalid⟩
  | activate role keyId =>
    obtain ⟨candidate, hfind, h⟩ := bind_ok.1 h
    obtain ⟨_, hpending, h⟩ := bind_ok.1 h
    obtain ⟨_, -, h⟩ := bind_ok.1 h
    obtain ⟨_, -, h⟩ := bind_ok.1 h
    obtain ⟨rfl, hvalid⟩ := validated_ok h
    exact ⟨.activate role keyId candidate (findRoot_ok hfind) (of_decide_eq_true (require_ok.1 hpending)), hvalid⟩
  | retire role keyId =>
    obtain ⟨candidate, hfind, h⟩ := bind_ok.1 h
    obtain ⟨_, hactive, h⟩ := bind_ok.1 h
    obtain ⟨rfl, hvalid⟩ := validated_ok h
    exact ⟨.retire role keyId candidate (findRoot_ok hfind) (of_decide_eq_true (require_ok.1 hactive)), hvalid⟩
  | revoke role keyId reason allowSeal =>
    obtain ⟨_, -, h⟩ := bind_ok.1 h
    obtain ⟨candidate, hfind, h⟩ := bind_ok.1 h
    obtain ⟨_, -, h⟩ := bind_ok.1 h
    obtain ⟨_, -, h⟩ := bind_ok.1 h
    obtain ⟨_, -, h⟩ := bind_ok.1 h
    obtain ⟨rfl, hvalid⟩ := validated_ok h
    exact ⟨.revoke role keyId reason allowSeal candidate (findRoot_ok hfind), hvalid⟩

theorem rotate_cases (C : Curve) (r : TrustRootRegister) (call : Rotation) :
    rotate C r call = r ∨ Stepped r call (rotate C r call) ∧ Valid C (rotate C r call) := by
  unfold rotate
  cases h : call.apply C r with
  | error e => exact .inl rfl
  | ok next => exact .inr (Rotation.apply_ok h)

/-- A root and what a call makes of it: only its own call revokes or activates it. -/
structure Changed (call : Rotation) (a b : TrustRoot) : Prop extends Moved a b where
  revoked : b.status = .revoked → a.status = .revoked ∨ ∃ reason allowSeal, call = .revoke a.role a.keyId reason allowSeal
  active : b.status = .active → a.status = .active ∨ call = .activate a.role a.keyId

theorem Changed.refl (call : Rotation) (a : TrustRoot) : Changed call a a := ⟨.refl a, .inl, .inl⟩

theorem Changed.retired (h : a.status = .active) : Changed call a { a with status := .retired } :=
  ⟨⟨rfl, rfl, rfl, rfl, rfl, .inr (.inr (.inl ⟨h, rfl⟩))⟩, (fun h => by cases h), fun h => by cases h⟩

/-- Every root is still there, and a root that was not is newly staged. -/
theorem Stepped.changed (h : Stepped r call r') (hvalid : Valid C r) :
    ∃ f more, r'.roots = r.roots.map f ++ more ∧ (∀ a ∈ r.roots, Changed call a (f a)) ∧
      ∀ b ∈ more, ∃ new, call = .expand new ∧ b.status = .pending ∧ b.role = new.role ∧ b.publicKey = new.publicKey ∧
        b.keyId = new.keyId := by
  cases h with
  | expand new =>
    refine ⟨id, [_], by rw [map_id], fun a _ => .refl _ a, fun b hb => ?_⟩
    rw [mem_singleton.1 hb]
    exact ⟨new, rfl, rfl, rfl, rfl, rfl⟩
  | activate role keyId candidate hfind hpending =>
    refine ⟨activateRoot role keyId, [], by rw [append_nil], fun a ha => ?_, by simp⟩
    unfold activateRoot
    by_cases hrole : a.role = role
    · rw [if_pos hrole]
      by_cases hid : a.keyId = keyId
      · obtain rfl := hvalid.unique ha hfind.1 (hrole.trans hfind.2.1.symm) (hid.trans hfind.2.2.symm)
        rw [if_pos hid]
        exact ⟨⟨rfl, rfl, rfl, rfl, rfl, .inr (.inl ⟨hpending, rfl⟩)⟩, (fun h => by cases h),
          fun _ => .inr (by rw [hrole, hid])⟩
      · rw [if_neg hid]
        by_cases hactive : a.status = .active
        · rw [if_pos hactive]
          exact .retired hactive
        · rw [if_neg hactive]
          exact .refl _ a
    · rw [if_neg hrole]
      exact .refl _ a
  | retire role keyId candidate hfind hactive =>
    refine ⟨retireRoot role keyId, [], by rw [append_nil], fun a ha => ?_, by simp⟩
    unfold retireRoot
    by_cases hboth : a.role = role ∧ a.keyId = keyId
    · obtain rfl := hvalid.unique ha hfind.1 (hboth.1.trans hfind.2.1.symm) (hboth.2.trans hfind.2.2.symm)
      rw [if_pos hboth]
      exact .retired hactive
    · rw [if_neg hboth]
      exact .refl _ a
  | revoke role keyId reason allowSeal candidate hfind =>
    refine ⟨revokeRoot role keyId reason, [], by rw [append_nil], fun a ha => ?_, by simp⟩
    unfold revokeRoot
    by_cases hboth : a.role = role ∧ a.keyId = keyId
    · rw [if_pos hboth]
      exact ⟨⟨rfl, rfl, rfl, rfl, rfl, .inr (.inr (.inr rfl))⟩,
        (fun _ => .inr ⟨reason, allowSeal, by rw [hboth.1, hboth.2]⟩), fun h => by cases h⟩
    · rw [if_neg hboth]
      exact .refl _ a

section

variable (hvalid : Valid C r)
include hvalid

theorem Valid.forth (ha : a ∈ r.roots) (call : Rotation) : ∃ b ∈ (rotate C r call).roots, Changed call a b := by
  rcases rotate_cases C r call with hsame | ⟨hstep, -⟩
  · exact ⟨a, hsame.symm ▸ ha, .refl call a⟩
  · obtain ⟨f, more, hroots, hkept, -⟩ := hstep.changed hvalid
    exact ⟨f a, hroots ▸ mem_append_left _ (mem_map_of_mem ha), hkept a ha⟩

theorem Valid.back (hb : b ∈ (rotate C r call).roots) :
    (∃ new, call = .expand new ∧ b.status = .pending ∧ b.role = new.role ∧ b.publicKey = new.publicKey ∧
      b.keyId = new.keyId) ∨ ∃ a ∈ r.roots, Changed call a b := by
  rcases rotate_cases C r call with hsame | ⟨hstep, -⟩
  · exact .inr ⟨b, hsame ▸ hb, .refl call b⟩
  · obtain ⟨f, more, hroots, hkept, hnew⟩ := hstep.changed hvalid
    rw [hroots] at hb
    rcases mem_append.1 hb with hb | hb
    · obtain ⟨a, ha, rfl⟩ := mem_map.1 hb
      exact .inr ⟨a, ha, hkept a ha⟩
    · exact .inl (hnew b hb)

end

/-! Verification. -/

variable {signature message : Bytes}

def TrustRoot.publicBytes (root : TrustRoot) : Option Bytes := decodeHex 32 root.publicKey

theorem publicBytes_congr (h : a.publicKey = b.publicKey) : a.publicBytes = b.publicBytes := congrArg (decodeHex 32) h

theorem verifyAgainst_ok : (verifyAgainst C root message signature).isOk = true ↔
      signature.length = 64 ∧ ∃ key, root.publicBytes = some key ∧ C.isKey key = true ∧
        C.accepts key message signature = true := by
  rw [isOk_iff]
  constructor
  · rintro ⟨_, h⟩
    obtain ⟨_, hlen, h⟩ := bind_ok.1 h
    obtain ⟨key, hkey, h⟩ := bind_ok.1 h
    refine ⟨of_decide_eq_true (require_ok.1 hlen), key, ?_⟩
    unfold TrustRoot.verifyingKey at hkey
    unfold TrustRoot.publicBytes
    cases hdecode : decodeHex 32 root.publicKey with
    | none =>
      rw [hdecode] at hkey
      cases hkey
    | some bytes =>
      rw [hdecode] at hkey
      by_cases hcurve : C.isKey bytes = true
      · simp only [if_pos hcurve] at hkey
        cases hkey
        exact ⟨rfl, hcurve, require_ok.1 h⟩
      · simp only [if_neg hcurve] at hkey
        cases hkey
  · rintro ⟨hlen, key, hkey, hcurve, haccepts⟩
    refine ⟨(), bind_ok.2 ⟨(), require_ok.2 (by simpa using hlen), bind_ok.2 ⟨key, ?_, require_ok.2 haccepts⟩⟩⟩
    unfold TrustRoot.publicBytes at hkey
    simp only [TrustRoot.verifyingKey, hkey, if_pos hcurve]

theorem mem_trusted : root ∈ trusted r role ↔ root ∈ r.roots ∧ root.role = role ∧ root.status.verifies = true := by
  simp [trusted, mem_inRole, and_assoc]

theorem verifyAny_ok (h : verifyAny C r role message signature = .ok root) :
    (root ∈ r.roots ∧ root.role = role ∧ root.status.verifies = true) ∧
      (verifyAgainst C root message signature).isOk = true := by
  unfold verifyAny at h
  cases hfind : (trusted r role).find? (fun root => (verifyAgainst C root message signature).isOk) with
  | none =>
    rw [hfind] at h
    cases h
  | some found =>
    rw [hfind] at h
    cases h
    refine ⟨mem_trusted.1 (mem_of_find?_eq_some hfind), ?_⟩
    have hsome := List.find?_some hfind
    exact hsome

theorem exists_verifyAny (hroot : root ∈ r.roots) (hrole : root.role = role) (hstatus : root.status.verifies = true)
    (h : (verifyAgainst C root message signature).isOk = true) :
    ∃ found, verifyAny C r role message signature = .ok found := by
  unfold verifyAny
  cases hfind : (trusted r role).find? (fun root => (verifyAgainst C root message signature).isOk) with
  | none => exact absurd h (List.find?_eq_none.1 hfind root (mem_trusted.2 ⟨hroot, hrole, hstatus⟩))
  | some found => exact ⟨found, rfl⟩

theorem verify_ok {claimed : String} (h : verify C r role keyId claimed message signature = .ok root) :
    (root ∈ r.roots ∧ root.role = role ∧ root.status.verifies = true) ∧
      (verifyAgainst C root message signature).isOk = true := by
  obtain ⟨found, hresolve, h⟩ := bind_ok.1 h
  obtain ⟨_, -, h⟩ := bind_ok.1 h
  obtain ⟨_, hverify, h⟩ := bind_ok.1 h
  cases h
  refine ⟨?_, isOk_iff.2 ⟨_, hverify⟩⟩
  unfold resolve at hresolve
  cases hfind : r.find role keyId with
  | none =>
    rw [hfind] at hresolve
    cases helse : r.roots.find? (fun root => root.keyId = keyId) with
    | none =>
      simp only [helse] at hresolve
      cases hresolve
    | some elsewhere =>
      simp only [helse] at hresolve
      cases hresolve
  | some x =>
    rw [hfind] at hresolve
    have hmem := mem_inRole.1 (mem_of_find?_eq_some hfind)
    cases hstatus : x.status with
    | pending | revoked =>
      simp only [hstatus] at hresolve
      cases hresolve
    | active | retired =>
      simp only [hstatus] at hresolve
      cases hresolve
      exact ⟨hmem.1, hmem.2, by rw [hstatus]; rfl⟩

/-! Runs. -/

variable {calls : List Rotation}

/-- A public key has one id in a role. -/
def OneIdPerKey (r : TrustRootRegister) : Prop :=
  ∀ a ∈ r.roots, ∀ b ∈ r.roots, a.role = b.role → a.publicBytes = b.publicBytes → a.keyId = b.keyId

instance (r : TrustRootRegister) : Decidable (OneIdPerKey r) := List.decidableBAll _ _

/-- A root that is staged has a public key its role did not have, and a root that is
    activated is not older than any that was more than staged. -/
def Forward (r : TrustRootRegister) : Rotation → Prop
  | .expand new => ∀ root ∈ r.roots, root.role = new.role → root.publicBytes ≠ new.publicBytes
  | .activate role keyId => ∀ candidate ∈ r.roots, candidate.role = role → candidate.keyId = keyId →
      ∀ root ∈ r.roots, root.role = role → root.status ≠ .pending → root.generation ≤ candidate.generation
  | .retire _ _ => True
  | .revoke _ _ _ _ => True

instance (r : TrustRootRegister) (call : Rotation) : Decidable (Forward r call) :=
  match call with
  | .expand _ | .activate _ _ => List.decidableBAll _ _
  | .retire _ _ | .revoke _ _ _ _ => inferInstanceAs (Decidable True)

abbrev ForwardRun (C : Curve) : TrustRootRegister → List Rotation → Prop := Along (rotate C) Forward

theorem Valid.rotate (h : Valid C r) (call : Rotation) : Valid C (rotate C r call) := by
  rcases rotate_cases C r call with hsame | ⟨-, hvalid⟩
  · rw [hsame]
    exact h
  · exact hvalid

theorem Valid.rotations (h : Valid C r) (calls : List Rotation) : Valid C (rotations C r calls) :=
  foldlRecOn calls (Loom.rotate C) h (fun _ h call _ => h.rotate call)

theorem OneIdPerKey.rotate (h : OneIdPerKey r) (hvalid : Valid C r) (hforward : Forward r call) :
    OneIdPerKey (rotate C r call) := by
  intro b hb b' hb' hrole hbytes
  rcases hvalid.back hb with ⟨new, rfl, -, hbrole, hbkey, hbid⟩ | ⟨a, ha, hmoved⟩
  · rcases hvalid.back hb' with ⟨new', hnew, -, -, -, hbid'⟩ | ⟨a', ha', hmoved'⟩
    · cases hnew
      rw [hbid, hbid']
    · refine absurd ?_ (hforward a' ha' (hmoved'.role.symm.trans (hrole.symm.trans hbrole)))
      rw [← publicBytes_congr hmoved'.publicKey, ← hbytes, publicBytes_congr hbkey]
  · rcases hvalid.back hb' with ⟨new', rfl, -, hbrole', hbkey', -⟩ | ⟨a', ha', hmoved'⟩
    · refine absurd ?_ (hforward a ha (hmoved.role.symm.trans (hrole.trans hbrole')))
      rw [← publicBytes_congr hmoved.publicKey, hbytes, publicBytes_congr hbkey']
    · rw [hmoved.keyId, hmoved'.keyId]
      refine h a ha a' ha' (hmoved.role.symm.trans (hrole.trans hmoved'.role)) ?_
      rw [← publicBytes_congr hmoved.publicKey, hbytes, publicBytes_congr hmoved'.publicKey]

theorem OneIdPerKey.rotations (h : OneIdPerKey r) (hvalid : Valid C r) (hforward : ForwardRun C r calls) :
    OneIdPerKey (rotations C r calls) :=
  (Along.keeps (I := fun r => Valid C r ∧ OneIdPerKey r) hforward ⟨hvalid, h⟩
    (fun _ call he ⟨hvalid, h⟩ => ⟨hvalid.rotate call, h.rotate hvalid he⟩)).2

theorem generation_le_of_run (hvalid : Valid C r) (hforward : ForwardRun C r calls) {g : Nat}
    (hpast : ∃ root ∈ r.roots, root.role = role ∧ root.status ≠ .pending ∧ root.generation = g)
    (hnow : ∀ root ∈ r.roots, root.role = role → root.status = .active → g ≤ root.generation) :
    ∀ root ∈ (rotations C r calls).roots, root.role = role → root.status = .active → g ≤ root.generation := by
  refine (Along.keeps (I := fun r => Valid C r ∧
    (∃ root ∈ r.roots, root.role = role ∧ root.status ≠ .pending ∧ root.generation = g) ∧
    ∀ root ∈ r.roots, root.role = role → root.status = .active → g ≤ root.generation) hforward ⟨hvalid, hpast, hnow⟩
    (fun r call he ⟨hvalid, hpast, hnow⟩ => ⟨hvalid.rotate call, ?_, ?_⟩)).2.2
  · obtain ⟨root, hroot, hrole, hstatus, hgen⟩ := hpast
    obtain ⟨root', hroot', hmoved⟩ := hvalid.forth hroot call
    refine ⟨root', hroot', hmoved.role.trans hrole, ?_, hmoved.generation.trans hgen⟩
    rcases hmoved.status with heq | ⟨hpending, -⟩ | ⟨-, heq⟩ | heq
    · rw [heq]
      exact hstatus
    · exact absurd hpending hstatus
    · rw [heq]
      simp
    · rw [heq]
      simp
  · intro b hb hrole hactive
    rcases hvalid.back hb with ⟨_, -, hpending, -⟩ | ⟨a, ha, hmoved⟩
    · rw [hpending] at hactive
      cases hactive
    · rw [hmoved.generation]
      rcases hmoved.active hactive with ha' | rfl
      · exact hnow a ha (hmoved.role.symm.trans hrole) ha'
      · -- the activated root is not older than any that was more than staged
        obtain ⟨root, hroot, hrole', hstatus, rfl⟩ := hpast
        exact he a ha rfl rfl root hroot (hrole'.trans (hrole.symm.trans hmoved.role)) hstatus

/-- The same root at two points of a run. -/
structure Same (a b : TrustRoot) : Prop where
  role : b.role = a.role
  keyId : b.keyId = a.keyId
  publicKey : b.publicKey = a.publicKey

theorem Same.moved {c : TrustRoot} (h : Same a b) (hmoved : Moved b c) : Same a c :=
  ⟨hmoved.role.trans h.role, hmoved.keyId.trans h.keyId, hmoved.publicKey.trans h.publicKey⟩

/-- A call revokes a root, which verifies before the call. -/
def Revokes (C : Curve) (r : TrustRootRegister) (a : TrustRoot) (call : Rotation) : Prop :=
  (∃ reason allowSeal, call = .revoke a.role a.keyId reason allowSeal) ∧
    (∃ x ∈ r.roots, Same a x ∧ x.status.verifies = true) ∧ ∃ y ∈ (rotate C r call).roots, Same a y ∧ y.status = .revoked

/-- A root that verifies does so until it is revoked. -/
theorem verifies_until_revoked (calls : List Rotation) (hvalid : Valid C r) (ha : a ∈ r.roots)
    (hstatus : a.status.verifies = true) :
    (∃ b ∈ (rotations C r calls).roots, Same a b ∧ b.status.verifies = true) ∨
    ∃ before call after, calls = before ++ call :: after ∧ Revokes C (rotations C r before) a call := by
  induction calls using reverseRecOn with
  | nil => exact .inl ⟨a, ha, ⟨rfl, rfl, rfl⟩, hstatus⟩
  | append_singleton calls call ih =>
    rcases ih with ⟨b, hb, hsame, hverifies⟩ | ⟨before, call', after, rfl, hrevokes⟩
    · rw [rotations, foldl_append]
      obtain ⟨c, hc, hnext⟩ := (hvalid.rotations calls).forth hb call
      rcases hnext.status with heq | ⟨hpending, -⟩ | ⟨-, heq⟩ | heq
      · exact .inl ⟨c, hc, hsame.moved hnext.toMoved, by rw [heq]; exact hverifies⟩
      · rw [hpending] at hverifies
        cases hverifies
      · exact .inl ⟨c, hc, hsame.moved hnext.toMoved, by rw [heq]; rfl⟩
      · rcases hnext.revoked heq with hb' | ⟨reason, allowSeal, rfl⟩
        · rw [hb'] at hverifies
          cases hverifies
        · rw [hsame.role, hsame.keyId] at hc ⊢
          exact .inr ⟨calls, _, [], rfl, ⟨reason, allowSeal, rfl⟩, ⟨b, hb, hsame, hverifies⟩,
            c, hc, hsame.moved hnext.toMoved, heq⟩
    · exact .inr ⟨before, call', after ++ [call], by simp, hrevokes⟩

theorem revoked_stays (calls : List Rotation) (hvalid : Valid C r) (ha : a ∈ r.roots) (hstatus : a.status = .revoked) :
    ∃ b ∈ (rotations C r calls).roots, Same a b ∧ b.status = .revoked := by
  refine (foldlRecOn (motive := fun r => Valid C r ∧ ∃ b ∈ r.roots, Same a b ∧ b.status = .revoked) calls (rotate C)
    ⟨hvalid, a, ha, ⟨rfl, rfl, rfl⟩, hstatus⟩ (fun r ⟨hvalid, b, hb, hsame, hstatus⟩ call _ => ⟨hvalid.rotate call, ?_⟩)).2
  obtain ⟨c, hc, hnext⟩ := hvalid.forth hb call
  refine ⟨c, hc, hsame.moved hnext.toMoved, ?_⟩
  rcases hnext.status with heq | ⟨hpending, -⟩ | ⟨hactive, -⟩ | heq
  · exact heq.trans hstatus
  · cases hstatus.symm.trans hpending
  · cases hstatus.symm.trans hactive
  · exact heq

/-- Between any two points of a run: the later register is valid, with one active root
    to a role at most, no older than the active root before; what verified still
    does, unless a root with that public key was revoked; and what still verifies is
    accepted by a public key other than any that was revoked. -/
theorem rotation_laws (C : Curve) (start : TrustRootRegister) (hvalid : Valid C start) (hkeys : OneIdPerKey start)
    (calls calls' : List Rotation) (hforward : ForwardRun C start (calls ++ calls')) :
    let r := rotations C start calls
    let r' := rotations C r calls'
    (Valid C r' ∧ ∀ role, (r'.activeIn role).length ≤ 1) ∧
    (∀ role, ∀ a ∈ r.activeIn role, ∀ b ∈ r'.activeIn role, a.generation ≤ b.generation) ∧
    (∀ role message signature root, verifyAny C r role message signature = .ok root →
      (∃ root', verifyAny C r' role message signature = .ok root') ∨
      ∃ before call after, calls' = before ++ call :: after ∧ Revokes C (rotations C r before) root call) ∧
    (∀ x ∈ r.roots, x.status = .revoked → ∀ message signature root,
      (verifyAny C r' x.role message signature = .ok root ∨
        ∃ keyId claimed, verify C r' x.role keyId claimed message signature = .ok root) →
      ∃ key, root.publicBytes = some key ∧ C.accepts key message signature = true ∧ x.publicBytes ≠ some key) := by
  intro r r'
  obtain ⟨hbefore, hafter⟩ := along_append.1 hforward
  have hr : Valid C r := hvalid.rotations calls
  have hr' : Valid C r' := hr.rotations calls'
  have hone : OneIdPerKey r' := (hkeys.rotations hvalid hbefore).rotations (hvalid.rotations calls) hafter
  have hactive : ∀ {r : TrustRootRegister} {role : KeyRole} {a : TrustRoot}, a ∈ r.activeIn role →
      a ∈ r.roots ∧ a.role = role ∧ a.status = .active := by
    intro r role a ha
    obtain ⟨hrole, hstatus⟩ := mem_filter.1 ha
    exact ⟨(mem_inRole.1 hrole).1, (mem_inRole.1 hrole).2, of_decide_eq_true hstatus⟩
  refine ⟨⟨hr', hr'.one_active⟩, ?_, ?_, ?_⟩
  · intro role a ha b hb
    obtain ⟨hamem, harole, hastatus⟩ := hactive ha
    obtain ⟨hbmem, hbrole, hbstatus⟩ := hactive hb
    refine generation_le_of_run hr hafter ⟨a, hamem, harole, by rw [hastatus]; simp, rfl⟩ ?_ b hbmem hbrole hbstatus
    -- the active root of the role is one
    intro root hroot hrole hstatus
    have hmem : root ∈ r.activeIn role := mem_filter.2 ⟨mem_inRole.2 ⟨hroot, hrole⟩, by simpa using hstatus⟩
    obtain ⟨i, hi, rfl⟩ := getElem_of_mem hmem
    obtain ⟨j, hj, rfl⟩ := getElem_of_mem ha
    have hone' := hr.one_active role
    obtain rfl : i = j := by omega
    exact le_refl _
  · intro role message signature root hverify
    obtain ⟨⟨hroot, hrole, hstatus⟩, hagainst⟩ := verifyAny_ok hverify
    refine (verifies_until_revoked calls' hr hroot hstatus).imp_left (fun ⟨b, hb, hsame, hbstatus⟩ => ?_)
    refine exists_verifyAny hb (hsame.role.trans hrole) hbstatus ?_
    rw [verifyAgainst_ok, publicBytes_congr hsame.publicKey]
    exact verifyAgainst_ok.1 hagainst
  · intro x hx hrevoked message signature root hverify
    obtain ⟨y, hy, hsame, hystatus⟩ := revoked_stays calls' hr hx hrevoked
    have hroot : (root ∈ r'.roots ∧ root.role = x.role ∧ root.status.verifies = true) ∧
        (verifyAgainst C root message signature).isOk = true := by
      rcases hverify with hany | ⟨keyId, claimed, hnamed⟩
      · exact verifyAny_ok hany
      · exact verify_ok hnamed
    obtain ⟨⟨hmem, hrole, hstatus⟩, hagainst⟩ := hroot
    obtain ⟨-, key, hkey, -, haccepts⟩ := verifyAgainst_ok.1 hagainst
    refine ⟨key, hkey, haccepts, fun heq => ?_⟩
    -- the same public key has the same id, so the root that verifies is the revoked one
    have hybytes : y.publicBytes = root.publicBytes := by
      rw [hkey, ← heq, publicBytes_congr hsame.publicKey]
    have hyrole : y.role = root.role := hsame.role.trans hrole.symm
    obtain rfl := hr'.unique hy hmem hyrole (hone y hy root hmem hyrole hybytes)
    rw [hystatus] at hstatus
    cases hstatus

/-! A register for runs: a signature is the public key, twice. -/

def echoCurve : Curve where
  isKey := fun _ => true
  accepts := fun key _ signature => signature = key ++ key

def byteKey (b : UInt8) : Bytes := List.replicate 32 b

def echo (b : UInt8) : Bytes := byteKey b ++ byteKey b

/-- The public key that repeats one decimal digit. -/
def releaseRoot (keyId : String) (digit : Char) (status : KeyStatus) (generation : Nat) : TrustRoot where
  keyId := keyId
  role := .release
  algorithm := .ed25519
  publicKey := String.ofList (List.replicate 64 digit)
  backend := .software
  status := status
  generation := generation
  ceremony := ⟨"ceremony", [⟨"first", 0⟩, ⟨"second", 0⟩]⟩
  revocationReason := none

def oneRoot : TrustRootRegister := ⟨1, [releaseRoot "one" '1' .active 1]⟩

/-- Two rotations, and the first key revoked at the end. -/
theorem rotation_laws_of_two_rotations :
    let first := [.expand (releaseRoot "two" '2' .pending 2), .activate .release "two"]
    let second := [.expand (releaseRoot "three" '3' .pending 3), .activate .release "three",
      .revoke .release "one" "lost" false]
    let r := rotations echoCurve oneRoot first
    let r' := rotations echoCurve r second
    (∀ role, (r'.activeIn role).length ≤ 1) ∧
    (∀ a ∈ r.activeIn .release, ∀ b ∈ r'.activeIn .release, a.generation ≤ b.generation) ∧
    verifyAny echoCurve r' .release [7] (echo 0x22) = .ok (releaseRoot "two" '2' .retired 2) ∧
    verifyAny echoCurve r' .release [7] (echo 0x11) = .error (.noTrustedKey .release 2) := by
  intro first second r r'
  have hvalid : Valid echoCurve oneRoot := by decide +kernel
  have hkeys : OneIdPerKey oneRoot := by decide +kernel
  have hforward : ForwardRun echoCurve oneRoot (first ++ second) := by decide +kernel
  obtain ⟨⟨-, hone⟩, hgen, -⟩ := rotation_laws echoCurve oneRoot hvalid hkeys first second hforward
  exact ⟨hone, hgen .release, by decide +kernel, by decide +kernel⟩

/-- With the active root retired, the next to be activated is an older one; and a
    revoked public key verifies again under another id. -/
theorem rotation_goes_back : (let newest := rotations echoCurve oneRoot [.expand (releaseRoot "two" '2' .pending 2),
        .expand (releaseRoot "three" '3' .pending 3), .activate .release "three"]
      let older := rotations echoCurve newest [.retire .release "three", .activate .release "two"]
      Valid echoCurve oneRoot ∧
      (newest.activeIn .release).map TrustRoot.generation = [3] ∧
      (older.activeIn .release).map TrustRoot.generation = [2]) ∧
    (let revoked := rotations echoCurve oneRoot [.expand (releaseRoot "two" '2' .pending 2),
        .activate .release "two", .revoke .release "one" "lost" false]
      let again := rotations echoCurve revoked [.expand (releaseRoot "three" '1' .pending 3),
        .activate .release "three"]
      verifyAny echoCurve revoked .release [7] (echo 0x11) = .error (.noTrustedKey .release 1) ∧
      verifyAny echoCurve again .release [7] (echo 0x11) = .ok (releaseRoot "three" '1' .active 3)) := by
  decide +kernel

end Mutiny.Loom

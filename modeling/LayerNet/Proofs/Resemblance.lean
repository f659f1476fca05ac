import LayerNet.Proofs.Footprint
import Mathlib.Data.List.Forall2
import Mathlib.Data.List.Perm.Basic

/-!
# Forests that differ in the order of parallel parts

Some lists of a forest have an order that means something: the layers that follow each other, and the
chains of a sequence.  Others are sets in disguise: the branches of a group, the layers inside a
special node, and its wires.  `Layer.Similar` relates trees that agree up to the order of the latter,
at every level.

To compare two expansions, `Expansion.Carries R x y` says that `y` succeeds whenever `x` does, with a
related result and with the same nodes placed, in any order.  It holds step by step
(`Carries.bind`), and by the frame property of expansions also for steps in another order
(`carries_mapM_perm`, `Carries.mapM_matched`).
-/

namespace LayerNet

/-! ## Lists in any order -/

section Matched

variable {α β γ δ : Type} {R : α → β → Prop} {S : γ → δ → Prop} {l l' : List α} {m m' : List β}

/-- Lists whose entries are related one to one, in any order. -/
def Matched (R : α → β → Prop) (l : List α) (m : List β) : Prop :=
  ∃ k, List.Forall₂ R l k ∧ k.Perm m

theorem Matched.of_forall₂ (h : List.Forall₂ R l m) : Matched R l m := ⟨m, h, .refl m⟩

theorem Matched.perm_left (hl : l.Perm l') (h : Matched R l' m) : Matched R l m := by
  obtain ⟨k, hk, hkm⟩ := h
  obtain ⟨k', hk', hk'k⟩ := List.perm_comp_forall₂ hl hk
  exact ⟨k', hk', hk'k.trans hkm⟩

theorem Matched.perm_right (h : Matched R l m) (hm : m.Perm m') : Matched R l m' := by
  obtain ⟨k, hk, hkm⟩ := h
  exact ⟨k, hk, hkm.trans hm⟩

theorem Matched.append (h : Matched R l m) (h' : Matched R l' m') :
    Matched R (l ++ l') (m ++ m') := by
  obtain ⟨k, hk, hkm⟩ := h
  obtain ⟨k', hk', hkm'⟩ := h'
  exact ⟨k ++ k', List.rel_append hk hk', hkm.append hkm'⟩

theorem Matched.length_eq (h : Matched R l m) : l.length = m.length := by
  obtain ⟨k, hk, hkm⟩ := h
  rw [hk.length_eq, hkm.length_eq]

theorem Matched.map {f : α → γ} {f' : β → δ} (h : Matched R l m)
    (hf : ∀ a b, R a b → S (f a) (f' b)) : Matched S (l.map f) (m.map f') := by
  obtain ⟨k, hk, hkm⟩ := h
  exact ⟨k.map f', List.rel_map (fun a b => hf a b) hk, hkm.map f'⟩

theorem Matched.filter {p : α → Bool} {p' : β → Bool} (h : Matched R l m)
    (hp : ∀ a b, R a b → (p a = true ↔ p' b = true)) :
    Matched R (l.filter p) (m.filter p') := by
  obtain ⟨k, hk, hkm⟩ := h
  exact ⟨k.filter p', List.rel_filter (fun a b => hp a b) hk, hkm.filter p'⟩

/-- Lists of lists may be flattened, which keeps the order within each of them. -/
theorem Matched.flatten {ls : List (List α)} {ms : List (List β)}
    (h : Matched (List.Forall₂ R) ls ms) : Matched R ls.flatten ms.flatten := by
  obtain ⟨k, hk, hkm⟩ := h
  exact ⟨k.flatten, List.rel_flatten hk, hkm.flatten⟩

/-- A list on its own is matched with a list in another order. -/
theorem Matched.of_perm {R : α → α → Prop} (hR : ∀ a, R a a) (h : l.Perm l') : Matched R l l' :=
  ⟨l, List.forall₂_same.2 fun a _ => hR a, h⟩

theorem matched_eq_iff : Matched (fun a b : α => a = b) l l' ↔ l.Perm l' := by
  constructor
  · rintro ⟨k, hk, hkl⟩
    rw [List.forall₂_eq_eq_eq] at hk
    exact hk ▸ hkl
  · exact .of_perm fun _ => rfl

end Matched

/-! ## Similar layers -/

/-- The same tree up to the order of the branches of groups, of the layers inside special nodes and
of the wires of special nodes, at every level. -/
inductive Layer.Similar : Layer → Layer → Prop
  | node {source : LayerNode} {inner found inner' : List Layer} {links links' : List AuxLink}
    {children children' : List Layer} :
    List.Forall₂ Layer.Similar inner found → found.Perm inner' → links.Perm links' →
      List.Forall₂ Layer.Similar children children' →
        Layer.Similar (.node source inner links children) (.node source inner' links' children')
  | sequence {steps steps' : List Layer} :
    List.Forall₂ Layer.Similar steps steps' → Layer.Similar (.sequence steps) (.sequence steps')
  | parallel {reduction : Reduction} {merge : Option NodeId} {branches found branches' : List Layer} :
    List.Forall₂ Layer.Similar branches found → found.Perm branches' →
      Layer.Similar (.parallel reduction merge branches) (.parallel reduction merge branches')

namespace Layer

theorem Similar.of_inner {source : LayerNode} {inner inner' children children' : List Layer}
    {links links' : List AuxLink} (hinner : Matched Similar inner inner')
    (hlinks : links.Perm links') (hchildren : List.Forall₂ Similar children children') :
    Similar (.node source inner links children) (.node source inner' links' children') := by
  obtain ⟨found, hfound, hperm⟩ := hinner
  exact .node hfound hperm hlinks hchildren

theorem Similar.of_branches {reduction : Reduction} {merge : Option NodeId}
    {branches branches' : List Layer} (h : Matched Similar branches branches') :
    Similar (.parallel reduction merge branches) (.parallel reduction merge branches') := by
  obtain ⟨found, hfound, hperm⟩ := h
  exact .parallel hfound hperm

theorem similar_asBranch {steps steps' : List Layer} (h : List.Forall₂ Similar steps steps') :
    Similar (asBranch steps) (asBranch steps') := by
  match steps, steps', h with
  | [], [], h => exact .sequence h
  | [_], [_], .cons h .nil => exact h
  | _ :: _ :: _, _ :: _ :: _, h => exact .sequence h

end Layer

/-- Heads at the same node whose groups are similar. -/
inductive Head.Similar : Head → Head → Prop
  | bare (node : NodeId) : Head.Similar ⟨node, none⟩ ⟨node, none⟩
  | grouped (node : NodeId) {group group' : Layer} :
    group.Similar group' → Head.Similar ⟨node, some group⟩ ⟨node, some group'⟩

theorem Head.Similar.node_eq {h h' : Head} (hh : h.Similar h') : h.node = h'.node := by
  cases hh <;> rfl

/-! ## Expansions that follow each other -/

namespace Expansion

variable {α β γ δ : Type} {R R' : α → β → Prop} {S : γ → δ → Prop} {x : Expansion α}
  {y : Expansion β} {s s' t : List NodeId} {a : α}

/-- Whenever `x` succeeds, `y` does, with a related result and with the same nodes placed. -/
def Carries (R : α → β → Prop) (x : Expansion α) (y : Expansion β) : Prop :=
  ∀ a s, x.Gives [] a s → ∃ b t, y.Gives [] b t ∧ R a b ∧ s.Perm t

/-- By the frame property it does not matter which nodes are placed before. -/
theorem Carries.gives (h : Carries R x y) (hx : x.Placing) (hy : y.Placing) (hs : s.Perm s')
    (hrun : x.Gives s a t) : ∃ b t', y.Gives s' b t' ∧ R a b ∧ t.Perm t' := by
  obtain ⟨ids, hids, hnew, rfl⟩ := hx.frame.1 hrun
  obtain ⟨b, ids', hids', hR, hperm⟩ := h a ids hids
  refine ⟨b, ids' ++ s', hy.frame.2 ⟨ids', hids', fun id hid hmem => ?_, rfl⟩, hR, hperm.append hs⟩
  exact hnew id (hperm.mem_iff.2 hid) (hs.mem_iff.2 hmem)

theorem Carries.imp (h : Carries R x y) (hR : ∀ a b, R a b → R' a b) : Carries R' x y := by
  intro a s hrun
  obtain ⟨b, t, hb, hab, hperm⟩ := h a s hrun
  exact ⟨b, t, hb, hR a b hab, hperm⟩

theorem Carries.refl (x : Expansion α) : Carries (fun a b => a = b) x x :=
  fun a s hrun => ⟨a, s, hrun, rfl, .refl s⟩

theorem Carries.comp {z : Expansion γ} {T : β → γ → Prop} (h : Carries R x y)
    (h' : Carries T y z) : Carries (fun a c => ∃ b, R a b ∧ T b c) x z := by
  intro a s hrun
  obtain ⟨b, t, hb, hab, hst⟩ := h a s hrun
  obtain ⟨c, u, hc, hbc, htu⟩ := h' b t hb
  exact ⟨c, u, hc, ⟨b, hab, hbc⟩, hst.trans htu⟩

theorem Carries.pure {a : α} {b : β} (h : R a b) :
    Carries R (Pure.pure a : Expansion α) (Pure.pure b) := by
  intro c s hrun
  obtain ⟨rfl, rfl⟩ := gives_pure_iff.1 hrun
  exact ⟨b, [], gives_pure_iff.2 ⟨rfl, rfl⟩, h, .refl _⟩

theorem Carries.refuse (node : NodeId) (obstacle : Obstacle) :
    Carries R (Expansion.refuse node obstacle) y :=
  fun _ _ hrun => absurd hrun not_gives_refuse

theorem Carries.bind {f : α → Expansion γ} {f' : β → Expansion δ} (h : Carries R x y)
    (hf : ∀ a b, R a b → Carries S (f a) (f' b)) (hplacing : ∀ a, (f a).Placing)
    (hplacing' : ∀ b, (f' b).Placing) : Carries S (x >>= f) (y >>= f') := by
  intro c u hrun
  obtain ⟨a, s, hx, hfa⟩ := gives_bind_iff.1 hrun
  obtain ⟨b, t, hy, hab, hst⟩ := h a s hx
  obtain ⟨d, u', hfb, hcd, huu'⟩ := (hf a b hab).gives (hplacing a) (hplacing' b) hst hfa
  exact ⟨d, u', gives_bind_iff.2 ⟨b, t, hy, hfb⟩, hcd, huu'⟩

/-- Related steps in the same order. -/
theorem Carries.mapM {T : γ → δ → Prop} {f : γ → Expansion α} {f' : δ → Expansion β} {l : List γ}
    {m : List δ} (h : List.Forall₂ T l m) (hf : ∀ c d, T c d → Carries R (f c) (f' d))
    (hplacing : ∀ c, (f c).Placing) (hplacing' : ∀ d, (f' d).Placing) :
    Carries (List.Forall₂ R) (l.mapM f) (m.mapM f') := by
  induction h with
  | nil => exact .pure .nil
  | @cons c d l m hcd _ ih =>
    rw [List.mapM_cons, List.mapM_cons]
    have hrest : ∀ a b, R a b → Carries (List.Forall₂ R)
        (l.mapM f >>= fun as => Pure.pure (a :: as)) (m.mapM f' >>= fun bs => Pure.pure (b :: bs)) :=
      fun a b hab => ih.bind (fun as bs habs => .pure (.cons hab habs)) (fun _ => .pure _)
        fun _ => .pure _
    exact (hf c d hcd).bind hrest
      (fun a => (Placing.mapM hplacing l).bind fun as => .pure _)
      fun b => (Placing.mapM hplacing' m).bind fun bs => .pure _

/-- The same steps in another order. -/
theorem carries_mapM_perm {f : γ → Expansion α} (hplacing : ∀ c, (f c).Placing) {l m : List γ}
    (h : l.Perm m) : Carries List.Perm (l.mapM f) (m.mapM f) := by
  induction h with
  | nil => exact .pure .nil
  | @cons c l m _ ih =>
    rw [List.mapM_cons, List.mapM_cons]
    refine (Carries.refl (f c)).bind (fun a b hab => ?_)
      (fun a => (Placing.mapM hplacing l).bind fun as => .pure _)
      fun b => (Placing.mapM hplacing m).bind fun bs => .pure _
    subst hab
    exact ih.bind (fun as bs habs => .pure (habs.cons a)) (fun _ => .pure _) fun _ => .pure _
  | swap c d l =>
    intro as u hrun
    obtain ⟨b, s, rest, hd, hcl, rfl⟩ := gives_mapM_cons_iff.1 hrun
    obtain ⟨a, t, rest, hc, hl, rfl⟩ := gives_mapM_cons_iff.1 hcl
    -- each of the two steps runs alone, and their ids are different
    obtain ⟨ids, hids, hapart, rfl⟩ := (hplacing c).frame.1 hc
    have hd' : (f d).Gives ids b (s ++ ids) :=
      (hplacing d).frame.2 ⟨s, hd, fun id hid hmem => hapart id hmem hid, rfl⟩
    obtain ⟨rest', u', hl', rfl, hperm⟩ := (Carries.refl (l.mapM f)).gives
      (Placing.mapM hplacing l) (Placing.mapM hplacing l) List.perm_append_comm hl
    refine ⟨a :: b :: rest, u', ?_, .swap a b rest, hperm⟩
    exact gives_mapM_cons_iff.2 ⟨a, ids, b :: rest, hids,
      gives_mapM_cons_iff.2 ⟨b, s ++ ids, rest, hd', hl', rfl⟩, rfl⟩
  | trans _ _ ih ih' =>
    refine (ih.comp ih').imp fun as cs habc => ?_
    obtain ⟨bs, hab, hbc⟩ := habc
    exact hab.trans hbc

/-- Related steps in any order. -/
theorem Carries.mapM_matched {T : γ → δ → Prop} {f : γ → Expansion α} {f' : δ → Expansion β}
    {l : List γ} {m : List δ} (h : Matched T l m) (hf : ∀ c d, T c d → Carries R (f c) (f' d))
    (hplacing : ∀ c, (f c).Placing) (hplacing' : ∀ d, (f' d).Placing) :
    Carries (Matched R) (l.mapM f) (m.mapM f') := by
  obtain ⟨k, hk, hkm⟩ := h
  exact (Carries.mapM hk hf hplacing hplacing').comp (carries_mapM_perm hplacing' hkm)

end Expansion

end LayerNet

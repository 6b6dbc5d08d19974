import MachineIR.Proofs.Cells

/-!
This module contains that a handle which has lost what it named never names anything again. A store
gives out every index once, and no edit fills a cell that was emptied; so whatever is done to a
routine later on, the cell stays empty. How many handles there are does not matter for this.
-/

namespace MachineIR

namespace Store

variable {α : Type} {s s' s'' : Store α}

structure Retires (s s' : Store α) : Prop where
  size : s.size ≤ s'.size
  empty : ∀ n, n < s.size → s.get? n = none → s'.get? n = none

namespace Retires

theorem refl (s : Store α) : s.Retires s := ⟨Nat.le_refl _, fun _ _ h => h⟩

theorem trans (h : s.Retires s') (h' : s'.Retires s'') : s.Retires s'' := by
  refine ⟨Nat.le_trans h.size h'.size, ?_⟩
  intro n hn hnone
  exact h'.empty n (Nat.lt_of_lt_of_le hn h.size) (h.empty n hn hnone)

theorem push (s : Store α) (a : α) : s.Retires (s.push a) := by
  refine ⟨by simp, ?_⟩
  intro n hn hnone
  rw [get?_push, if_neg (by omega)]
  exact hnone

theorem modify (s : Store α) (i : Nat) (f : α → α) : s.Retires (s.modify i f) := by
  refine ⟨by simp, ?_⟩
  intro n hn hnone
  simp [get?_modify, hnone]

theorem erase (s : Store α) (i : Nat) : s.Retires (s.erase i) := by
  refine ⟨by simp, ?_⟩
  intro n hn hnone
  simp [get?_erase, hnone]

end Retires

end Store

namespace Routine

variable {r r' r'' : Routine}

structure Retires (r r' : Routine) : Prop where
  insns : r.insns.Retires r'.insns
  blocks : r.blocks.Retires r'.blocks

namespace Retires

theorem of_eq (hinsns : r'.insns = r.insns) (hblocks : r'.blocks = r.blocks) : r.Retires r' := by
  constructor
  . rw [hinsns]
    exact .refl _
  . rw [hblocks]
    exact .refl _

theorem refl (r : Routine) : r.Retires r := of_eq rfl rfl

theorem trans (h : r.Retires r') (h' : r'.Retires r'') : r.Retires r'' :=
  ⟨h.insns.trans h'.insns, h.blocks.trans h'.blocks⟩

instance : Std.Refl Retires := ⟨refl⟩

instance : Trans Retires Retires Retires := ⟨trans⟩

theorem modifyInsn (r : Routine) (id : InsnId) (f : Insn → Insn) : r.Retires (r.modifyInsn id f) :=
  ⟨.modify _ _ _, .refl _⟩

theorem modifyBlock (r : Routine) (b : BlockId) (f : Block → Block)
    : r.Retires (r.modifyBlock b f) :=
  ⟨.refl _, .modify _ _ _⟩

theorem insn? (h : r.Retires r') {id : InsnId} (hid : id.toNat < r.insns.size)
    (hnone : r.insn? id = none) : r'.insn? id = none := h.insns.empty _ hid hnone

theorem block? (h : r.Retires r') {b : BlockId} (hb : b.toNat < r.blocks.size)
    (hnone : r.block? b = none) : r'.block? b = none := h.blocks.empty _ hb hnone

end Retires

theorem allows_retires : Edit.Allows Retires where
  modifyInsn r id f _ := .modifyInsn r id f
  modifyBlock r b f _ := .modifyBlock r b f
  pushInsn r i _ := ⟨.push r.insns i, .refl r.blocks⟩
  eraseInsn r n := ⟨.erase r.insns n, .refl r.blocks⟩
  pushBlock r := ⟨.refl r.insns, .push r.blocks _⟩
  eraseBlock r n := ⟨.refl r.insns, .erase r.blocks n⟩
  rest _ _ hinsns hblocks _ _ := .of_eq hinsns hblocks

theorem retires_renameInsns (r : Routine) : r.Retires r.renameInsns := by
  unfold renameInsns
  refine .trans (rel_foldl ?_ _ r) (.of_eq rfl rfl)
  rintro r ⟨id, name⟩
  exact .modifyInsn r id _

theorem retires_renameBlocks (r : Routine) : r.Retires r.renameBlocks := by
  unfold renameBlocks
  refine .trans (rel_foldl ?_ _ r) (.of_eq rfl rfl)
  rintro r ⟨b, name⟩
  exact .modifyBlock r b _

theorem retires_topologicalSort (r : Routine) : r.Retires r.topologicalSort := by
  unfold topologicalSort
  split
  . exact .refl r
  . have hsort : ∀ order, r.Retires { r with order } := fun order => .of_eq rfl rfl
    exact (hsort _).trans (retires_renameBlocks _)

theorem retires_actions (actions : List Action) (r : Routine)
    : r.Retires (actions.foldl (fun r a => Edit.left a.run r) r) := by
  refine rel_foldl (fun r a => ?_) actions r
  exact allows_retires.action (retires_renameInsns r) (retires_renameBlocks r)
    (retires_topologicalSort r) a

theorem after_append (actions later : List Action)
    : after (actions ++ later) =
        later.foldl (fun r a => Edit.left a.run r) (after actions) := List.foldl_append

theorem insn?_after_of_gone {actions later gone : List Action} {id : InsnId}
    (hlive : (after actions).insn? id ≠ none) (hgone : (after (actions ++ gone)).insn? id = none)
    : (after (actions ++ gone ++ later)).insn? id = none := by
  obtain ⟨i, hi⟩ := Option.ne_none_iff_exists'.mp hlive
  have hsize := (retires_actions gone (after actions)).insns.size
  rw [← after_append] at hsize
  rw [after_append _ later]
  exact (retires_actions later _).insn? (Nat.lt_of_lt_of_le (Store.lt_size_of_get? hi) hsize) hgone

theorem block?_after_of_gone {actions later gone : List Action} {b : BlockId}
    (hlive : (after actions).block? b ≠ none) (hgone : (after (actions ++ gone)).block? b = none)
    : (after (actions ++ gone ++ later)).block? b = none := by
  obtain ⟨found, hb⟩ := Option.ne_none_iff_exists'.mp hlive
  have hsize := (retires_actions gone (after actions)).blocks.size
  rw [← after_append] at hsize
  rw [after_append _ later]
  exact (retires_actions later _).block? (Nat.lt_of_lt_of_le (Store.lt_size_of_get? hb) hsize) hgone

end Routine

end MachineIR

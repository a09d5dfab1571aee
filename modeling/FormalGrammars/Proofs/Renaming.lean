import FormalGrammars.Ordered
import FormalGrammars.Proofs.Yield
import Mathlib.Data.List.Nodup
import Mathlib.Logic.Equiv.Basic

/-!
# Renaming variables

A renaming gives different symbols different names, keeps variables variables
and leaves terminals alone.  Sets and maps in order of insertion only compare
their elements, so their operations commute with a renaming.  Two lists of new
variables are carried onto each other by a renaming that keeps all the symbols
that are old, and a tree of a grammar whose symbols are kept stays as it is.
-/

namespace FormalGrammars

/-! ## Sets and maps -/

section Ordered

variable {α : Type} {f : α → α}

theorem map_eq_self {xs : List α} (hxs : ∀ x ∈ xs, f x = x) : xs.map f = xs :=
  (List.map_congr_left hxs).trans (List.map_id xs)

variable [DecidableEq α]

theorem map_insertNew (hf : Function.Injective f) (xs : List α) (a : α) :
    (insertNew xs a).map f = insertNew (xs.map f) (f a) := by
  unfold insertNew
  by_cases ha : a ∈ xs
  · rw [if_pos ha, if_pos (List.mem_map_of_mem ha)]
  · rw [if_neg ha, if_neg (by rwa [List.mem_map_of_injective hf]),
      List.map_append, List.map_cons, List.map_nil]

theorem map_extendNew (hf : Function.Injective f) (xs ys : List α) :
    (extendNew xs ys).map f = extendNew (xs.map f) (ys.map f) := by
  induction ys generalizing xs with
  | nil => rfl
  | cons y ys ih =>
      have hrest := ih (insertNew xs y)
      rw [map_insertNew hf] at hrest
      exact hrest

namespace OrderedMap

variable {κ ν : Type} {f : κ → κ} {h : ν → ν}

/-- Renames the keys and changes the values. -/
def rename (f : κ → κ) (h : ν → ν) (m : OrderedMap κ ν) : OrderedMap κ ν :=
  ⟨m.entries.map fun entry => (f entry.1, h entry.2)⟩

theorem keys_rename (f : κ → κ) (h : ν → ν) (m : OrderedMap κ ν) :
    (m.rename f h).keys = m.keys.map f := by
  simp [rename, keys]

variable [DecidableEq κ] (hf : Function.Injective f)

include hf

theorem contains_rename (m : OrderedMap κ ν) (h : ν → ν) (key : κ) :
    (m.rename f h).contains (f key) = m.contains key := by
  simp [rename, contains, List.any_map, Function.comp_def, hf.eq_iff]

theorem get?_rename (m : OrderedMap κ ν) (h : ν → ν) (key : κ) :
    (m.rename f h).get? (f key) = (m.get? key).map h := by
  simp [rename, get?, List.find?_map, Function.comp_def, hf.eq_iff]

theorem getD_rename (m : OrderedMap κ ν) (h : ν → ν) (key : κ) (fallback : ν) :
    (m.rename f h).getD (f key) (h fallback) = h (m.getD key fallback) := by
  rw [getD, get?_rename hf, Option.getD_map, getD]

theorem alter_rename (m : OrderedMap κ ν) (key : κ) (fallback : ν)
    {update change : ν → ν}
    (hupdate : ∀ value, change (h value) = h (update value)) :
    (m.rename f h).alter (f key) (h fallback) change =
      (m.alter key fallback update).rename f h := by
  unfold alter
  rw [contains_rename hf]
  split
  next =>
    simp only [rename, List.map_map]
    congr 1
    apply List.map_congr_left
    intro entry _
    by_cases hentry : entry.1 = key
    · simp [hentry, hupdate]
    · simp [hentry, hf.eq_iff]
  next => simp [rename, hupdate]

theorem insert_rename (m : OrderedMap κ ν) (key : κ) (value : ν) :
    (m.rename f h).insert (f key) (h value) =
      (m.insert key value).rename f h :=
  alter_rename hf m key value fun _ => rfl

theorem insertIfNew_rename (m : OrderedMap κ ν) (key : κ) (value : ν) :
    (m.rename f h).insertIfNew (f key) (h value) =
      (m.insertIfNew key value).rename f h := by
  unfold insertIfNew
  rw [contains_rename hf]
  split
  next => rfl
  next => simp [rename]

end OrderedMap

end Ordered

/-! ## Renamings -/

structure Renames (f : Symbol → Symbol) : Prop where
  injective : Function.Injective f
  isVar_eq : ∀ s, (f s).isVar = s.isVar
  eq_of_isTerm : ∀ s, s.isTerm = true → f s = s

variable {f : Symbol → Symbol}

namespace Renames

theorem form_injective (hf : Renames f) :
    Function.Injective (List.map f : Form → Form) :=
  List.map_injective_iff.mpr hf.injective

theorem isTerm_eq (hf : Renames f) (s : Symbol) : (f s).isTerm = s.isTerm := by
  rw [Symbol.isTerm_eq_not_isVar, hf.isVar_eq, Symbol.isTerm_eq_not_isVar]

theorem eq_of_isTerminal (hf : Renames f) {form : Form}
    (hform : Form.isTerminal form = true) : ∀ s ∈ form, f s = s :=
  fun s hs => hf.eq_of_isTerm s (List.all_eq_true.mp hform s hs)

end Renames

theorem renames_id : Renames id :=
  ⟨Function.injective_id, fun _ => rfl, fun _ _ => rfl⟩

/-- Two variables change places after a renaming. -/
theorem Renames.swap (hf : Renames f) {a b : Symbol} (ha : a.isVar = true)
    (hb : b.isVar = true) : Renames fun s => Equiv.swap a b (f s) := by
  have hswap : ∀ s, (Equiv.swap a b s).isVar = s.isVar := by
    intro s
    rw [Equiv.swap_apply_def]
    split
    next heq => rw [heq, ha, hb]
    next =>
      split
      next heq => rw [heq, ha, hb]
      next => rfl
  refine ⟨(Equiv.swap a b).injective.comp hf.injective,
    fun s => (hswap _).trans (hf.isVar_eq s), fun s hs => ?_⟩
  rw [hf.eq_of_isTerm s hs]
  have hvar := Symbol.not_isVar_of_isTerm hs
  refine Equiv.swap_apply_of_ne_of_ne ?_ ?_
  · exact fun heq => hvar (heq ▸ ha)
  · exact fun heq => hvar (heq ▸ hb)

/-- New variables are carried onto others one by one, and nothing old moves. -/
theorem exists_renames {olds news : List Symbol} (kept : Symbol → Prop)
    (holds : olds.Nodup) (hnews : news.Nodup)
    (hvars : ∀ s ∈ olds ++ news, s.isVar = true)
    (hkept : ∀ s, kept s → s ∉ olds ++ news) :
    ∃ f, Renames f ∧ (∀ s, kept s → f s = s) ∧
      ∀ (i : Nat) (s t : Symbol), olds[i]? = some s → news[i]? = some t → f s = t := by
  induction olds generalizing news with
  | nil => exact ⟨id, renames_id, fun _ _ => rfl, by simp⟩
  | cons old olds ih =>
      cases news with
      | nil => exact ⟨id, renames_id, fun _ _ => rfl, by simp⟩
      | cons new news =>
          obtain ⟨hold, holds⟩ := List.nodup_cons.mp holds
          obtain ⟨hnew, hnews⟩ := List.nodup_cons.mp hnews
          obtain ⟨f, hf, hkeeps, hcarries⟩ := ih holds hnews
            (fun s hs => hvars s (by simp at hs ⊢; tauto))
            (fun s hs hmem => hkept s hs (by simp at hmem ⊢; tauto))
          have holdVar := hvars old (by simp)
          have hnewVar := hvars new (by simp)
          -- `f` may have sent `old` anywhere; a swap sends it to `new`.
          refine ⟨_, hf.swap ((hf.isVar_eq old).trans holdVar) hnewVar,
            fun s hs => ?_, fun i s t hs ht => ?_⟩
          · have hmoved := hkept s hs
            rw [hkeeps s hs]
            refine Equiv.swap_apply_of_ne_of_ne (fun heq => ?_) (fun heq => ?_)
            · rw [← hkeeps s hs] at heq
              exact hmoved (hf.injective heq ▸ by simp)
            · exact hmoved (heq ▸ by simp)
          · cases i with
            | zero =>
                simp only [List.getElem?_cons_zero, Option.some.injEq] at hs ht
                subst hs
                subst ht
                exact Equiv.swap_apply_left _ _
            | succ i =>
                rw [List.getElem?_cons_succ] at hs ht
                rw [hcarries i s t hs ht]
                refine Equiv.swap_apply_of_ne_of_ne (fun heq => ?_)
                  (fun heq => ?_)
                · rw [← hcarries i s t hs ht] at heq
                  exact hold (hf.injective heq ▸ List.mem_of_getElem? hs)
                · exact hnew (heq ▸ List.mem_of_getElem? ht)

/-! ## Productions -/

namespace Production

def rename (f : Symbol → Symbol) (p : Production) : Production :=
  ⟨p.lhs.map f, p.rhs.map f⟩

variable {p : Production}

theorem rename_rule (s : Symbol) (form : Form) :
    (rule s form).rename f = rule (f s) (form.map f) :=
  rfl

theorem rename_injective (hf : Renames f) :
    Function.Injective (rename f) := by
  rintro ⟨lhs, rhs⟩ ⟨lhs', rhs'⟩ heq
  obtain ⟨hlhs, hrhs⟩ := Production.mk.inj heq
  cases hf.form_injective hlhs
  cases hf.form_injective hrhs
  rfl

theorem head?_rename (hf : Renames f) (p : Production) :
    (p.rename f).head? = p.head?.map f := by
  obtain ⟨lhs, rhs⟩ := p
  unfold head? Form.soleVariable? rename
  match lhs with
  | [] => rfl
  | [s] =>
      simp only [List.map_cons, List.map_nil, hf.isVar_eq]
      split <;> rfl
  | _ :: _ :: _ => rfl

theorem rename_eq_self (hp : ∀ s ∈ p.symbols, f s = s) : p.rename f = p := by
  have hlhs : p.lhs.map f = p.lhs :=
    map_eq_self fun s hs => hp s (List.mem_append_left _ hs)
  have hrhs : p.rhs.map f = p.rhs :=
    map_eq_self fun s hs => hp s (List.mem_append_right _ hs)
  rw [rename, hlhs, hrhs]

end Production

/-- No symbol of the productions is moved. -/
def Grammar.KeptBy (g : Grammar) (f : Symbol → Symbol) : Prop :=
  ∀ p ∈ g.productions, ∀ s ∈ p.symbols, f s = s

variable {g : Grammar}

theorem Grammar.KeptBy.rename_eq (hg : g.KeptBy f) {p : Production}
    (hp : p ∈ g.productions) : p.rename f = p :=
  Production.rename_eq_self (hg p hp)

/-! ## Trees -/

namespace Tree

mutual

def rename (f : Symbol → Symbol) : Tree → Tree
  | leaf s => leaf (f s)
  | node s p children => node (f s) (p.rename f) (renameAll f children)

def renameAll (f : Symbol → Symbol) : List Tree → List Tree
  | [] => []
  | tree :: trees => tree.rename f :: renameAll f trees

end

theorem renameAll_eq_map (f : Symbol → Symbol) (trees : List Tree) :
    renameAll f trees = trees.map (rename f) := by
  induction trees with
  | nil => rfl
  | cons tree trees ih => rw [renameAll, ih, List.map_cons]

theorem rename_eq_self (hg : g.KeptBy f) {tree : Tree}
    (hvalid : tree.ValidFor g) (hroot : f tree.root = tree.root) :
    tree.rename f = tree := by
  induction tree using Tree.induction with
  | leaf s => exact congrArg leaf hroot
  | node s p children ih =>
      obtain ⟨hmem, _, hroots, hchildren⟩ := hvalid
      have hsame : children.map (rename f) = children := by
        refine map_eq_self fun child hchild => ?_
        refine ih child hchild (allValidFor_iff.mp hchildren child hchild) ?_
        refine hg p hmem _ (List.mem_append_right _ ?_)
        exact hroots ▸ List.mem_map_of_mem hchild
      rw [rename, renameAll_eq_map, hsame, hg.rename_eq hmem]
      exact congrArg (node · p children) hroot

end Tree

end FormalGrammars

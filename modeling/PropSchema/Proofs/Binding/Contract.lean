import PropSchema.Proofs.Binding.Foresight

namespace PropSchema

structure Contract where
  fits : Question → Prop
  grants : (q : Question) → q.Answer → Prop

namespace Dialogue

variable {α β : Type} {c : Contract}

/-- Given the answers that are granted, the dialogue asks fitting questions and ends in a value with
the property. -/
def Keeps (c : Contract) (result : α → Prop) : Dialogue α → Prop
  | .done a => result a
  | .ask q next => c.fits q ∧ ∀ answer, c.grants q answer → (next answer).Keeps c result

theorem Keeps.bind {result : α → Prop} {result' : β → Prop} {d : Dialogue α} {f : α → Dialogue β}
    (h : d.Keeps c result) (hf : ∀ a, result a → (f a).Keeps c result') :
    (d >>= f).Keeps c result' := by
  induction d with
  | done a => exact hf a h
  | ask q next ih => exact ⟨h.1, fun answer hanswer => ih answer (h.2 answer hanswer)⟩

theorem Keeps.mapM {result : β → Prop} {f : α → Dialogue β} {l : List α}
    (h : ∀ a ∈ l, (f a).Keeps c result) : (l.mapM f).Keeps c fun bs => ∀ b ∈ bs, result b := by
  induction l with
  | nil => exact fun b hb => absurd hb List.not_mem_nil
  | cons a l ih =>
    rw [List.mapM_cons]
    refine (h a List.mem_cons_self).bind fun b hb => ?_
    refine (ih fun a ha => h a (List.mem_cons_of_mem _ ha)).bind fun bs hbs => ?_
    exact List.forall_mem_cons.2 ⟨hb, hbs⟩

theorem Keeps.imp {result result' : α → Prop} {d : Dialogue α} (h : d.Keeps c result)
    (himp : ∀ a, result a → result' a) : d.Keeps c result' := by
  induction d with
  | done a => exact himp a h
  | ask q next ih => exact ⟨h.1, fun answer hanswer => ih answer (h.2 answer hanswer)⟩

theorem Keeps.trivial {result : α → Prop} {d : Dialogue α} (h : d.Keeps c result) :
    d.Keeps c fun _ => True :=
  h.imp fun _ _ => True.intro

theorem Keeps.mapM_trivial {f : α → Dialogue β} {l : List α}
    (h : ∀ a ∈ l, (f a).Keeps c fun _ => True) : (l.mapM f).Keeps c fun _ => True :=
  (Keeps.mapM h).trivial

theorem Keeps.and_ends {result result' : α → Prop} {d : Dialogue α} (h : d.Keeps c result)
    (hends : d.Ends result') : d.Keeps c fun a => result a ∧ result' a := by
  induction d with
  | done a => exact ⟨h, hends⟩
  | ask q next ih =>
    exact ⟨h.1, fun answer hanswer => ih answer (h.2 answer hanswer) (hends answer)⟩

end Dialogue

theorem Binder.yields_run {α : Type} {c : Contract} {inv fore : Bindings → Prop} {bind : Binder}
    (hfore : ∀ {b c : Bindings}, b.Settles c → fore c → fore b)
    (hgrows : ∀ scope n, Kept Bindings.Grows (bind scope n))
    (hanswer : ∀ q, c.fits q → Yields inv fore (bind.answer q) (c.grants q)) {d : Dialogue α}
    {result : α → Prop} (h : d.Keeps c result) : Yields inv fore (bind.run d) result := by
  induction d with
  | done a => exact yields_pure h
  | ask q next ih =>
    exact (hanswer q h.1).bind hfore (fun a ha => ih a (h.2 a ha))
      fun a => kept_grows hgrows (next a)

end PropSchema

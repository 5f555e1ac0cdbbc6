import FormalLanguages.Proofs.Name.Freshness

namespace FormalLanguages.Name

/-! Items are named one after another. Each takes the name on its label or counts it up,
so that no two of them get the same name and none gets a reserved one. -/

variable {ι : Type} {reserved : List String} {label : ι → String}

def assign (reserved : List String) (label : ι → String) (known : List (ι × String)) (item : ι) :
    List (ι × String) :=
  known ++ [(item, freshOrSelf (label item) (reserved ++ known.map Prod.snd))]

theorem map_fst_foldl_assign (items : List ι) (known : List (ι × String)) :
    (items.foldl (assign reserved label) known).map Prod.fst = known.map Prod.fst ++ items := by
  induction items generalizing known with
  | nil => simp
  | cons item rest induction => simp [induction, assign]

theorem nodup_foldl_assign (items : List ι) {known : List (ι × String)}
    (nodup : (reserved ++ known.map Prod.snd).Nodup) :
    (reserved ++ (items.foldl (assign reserved label) known).map Prod.snd).Nodup := by
  induction items generalizing known with
  | nil => exact nodup
  | cons item rest induction =>
      apply induction
      have fresh := freshOrSelf_not_mem (label item) (reserved ++ known.map Prod.snd)
      rw [assign, List.map_append, ← List.append_assoc]
      refine List.nodup_append.mpr ⟨nodup, List.pairwise_singleton _ _, ?_⟩
      intro taken inTaken chosen inChosen same
      cases same
      rw [List.mem_singleton.mp inChosen] at inTaken
      exact fresh inTaken

/-- Labels that differ from each other and from what is taken are given as they are. -/
theorem foldl_assign_of_nodup (items : List ι) {known : List (ι × String)}
    (nodup : (reserved ++ known.map Prod.snd ++ items.map label).Nodup) :
    items.foldl (assign reserved label) known =
      known ++ items.map fun item => (item, label item) := by
  induction items generalizing known with
  | nil => rw [List.foldl_nil, List.map_nil, List.append_nil]
  | cons item rest induction =>
      have free : label item ∉ reserved ++ known.map Prod.snd := fun taken =>
        (List.nodup_append.mp nodup).2.2 _ taken _ List.mem_cons_self rfl
      have own : assign reserved label known item = known ++ [(item, label item)] := by
        rw [assign, freshOrSelf_of_not_mem free]
      rw [List.foldl_cons, own, induction, List.append_assoc]
      · rfl
      · rw [List.map_append, ← List.append_assoc, List.append_assoc]
        exact nodup

/-- Every item that was not named before gets its own name or one that is counted up from it. -/
theorem eq_freshOrSelf_of_mem_foldl_assign {items : List ι} {known : List (ι × String)}
    {entry : ι × String} (listed : entry ∈ items.foldl (assign reserved label) known) :
    entry ∈ known ∨ ∃ taken, entry.2 = freshOrSelf (label entry.1) taken := by
  induction items generalizing known with
  | nil => exact .inl listed
  | cons item rest induction =>
      refine (induction listed).elim (fun assigned => ?_) .inr
      rcases List.mem_append.mp assigned with before | own
      · exact .inl before
      · rw [List.mem_singleton.mp own]
        exact .inr ⟨_, rfl⟩

end FormalLanguages.Name

import NovaChat.Store
import Mathlib.Data.List.Perm.Lattice

/-!
# Tenant indexes

An index lists the keys of a table under the tenants of their entries.  It is exact if it lists
nothing else, and proper if no set in it is empty or repeats a key.  Writing an entry and dropping
one keep both, as long as an entry never moves to another tenant.
-/

namespace NovaChat

/-- `ix` lists every key of `m` under the tenant of its entry, and lists nothing else. -/
structure Inverts {K V : Type} [DecidableEq K] (tenantOf : V → TenantId) (m : HashMap K V)
    (ix : HashMap TenantId (List K)) : Prop where
  exact : ∀ tenant k, k ∈ (ix.lookup tenant).getD [] ↔
    ∃ v, m.lookup k = some v ∧ tenantOf v = tenant
  proper : ∀ {tenant ks}, ix.lookup tenant = some ks → ks ≠ [] ∧ ks.Nodup

section Inverts

variable {K V : Type} [DecidableEq K] {tenantOf : V → TenantId} {m m' : HashMap K V}
  {ix : HashMap TenantId (List K)} {k : K} {v : V}

theorem lookup_index (ix : HashMap TenantId (List K)) (tenant tenant' : TenantId) (k : K) :
    (Inner.index ix tenant k).lookup tenant' =
      if tenant' = tenant then some (((ix.lookup tenant).getD []).insert k)
      else ix.lookup tenant' :=
  HashMap.lookup_insert' _ _ _ _

/-- What is left of a tenant's set once a key was dropped from it. -/
theorem lookup_unindex (ix : HashMap TenantId (List K)) (tenant tenant' : TenantId) (k : K) :
    (Inner.unindex ix tenant k).lookup tenant' =
      if tenant' = tenant then
        (ix.lookup tenant).bind fun ks ↦ if (ks.erase k).isEmpty then none else some (ks.erase k)
      else ix.lookup tenant' := by
  unfold Inner.unindex
  cases hks : ix.lookup tenant with
  | none =>
      split_ifs with h
      · rw [h, hks]
        rfl
      · rfl
  | some ks =>
      by_cases hempty : (ks.erase k).isEmpty = true
      · simp only [hempty, if_true, HashMap.lookup_erase', Option.bind_some]
      · simp only [hempty, Bool.false_eq_true, if_false, HashMap.lookup_insert', Option.bind_some]

namespace Inverts

theorem empty : Inverts tenantOf (∅ : HashMap K V) ∅ := by
  constructor
  · intro tenant k
    simp
  · intro tenant ks h
    simp at h

theorem nodup (h : Inverts tenantOf m ix) (tenant : TenantId) :
    ((ix.lookup tenant).getD []).Nodup := by
  cases hks : ix.lookup tenant with
  | none => exact List.nodup_nil
  | some ks => exact (h.proper hks).2

theorem congr (h : Inverts tenantOf m ix)
    (hm : ∀ k, (m'.lookup k).map tenantOf = (m.lookup k).map tenantOf) :
    Inverts tenantOf m' ix := by
  constructor
  · intro tenant k
    have hiff := h.exact tenant k
    simp only [← Option.map_eq_some_iff] at hiff ⊢
    rw [hm]
    exact hiff
  · exact h.proper

/-- An entry is written, and its key indexed. -/
theorem insert (h : Inverts tenantOf m ix)
    (hk : ∀ v', m.lookup k = some v' → tenantOf v' = tenantOf v) :
    Inverts tenantOf (m.insert k v) (Inner.index ix (tenantOf v) k) := by
  constructor
  · intro tenant k'
    rw [lookup_index]
    have hothers := h.exact tenant k'
    by_cases hk' : k' = k
    · subst hk'
      have hlook : (AList.insert k' v m).lookup k' = some v := AList.lookup_insert m
      by_cases htenant : tenant = tenantOf v
      · simp [htenant, hlook]
      · rw [if_neg htenant, hothers]
        constructor
        · rintro ⟨v', hv', rfl⟩
          exact absurd (hk v' hv') htenant
        · rintro ⟨v', hv', rfl⟩
          rw [hlook] at hv'
          exact absurd (congrArg tenantOf (Option.some.inj hv').symm) htenant
    · have hlook : (AList.insert k v m).lookup k' = m.lookup k' := AList.lookup_insert_ne hk'
      rw [hlook, ← hothers]
      split_ifs with htenant
      · subst htenant
        simp [List.mem_insert_iff, hk']
      · exact Iff.rfl
  · intro tenant ks hks
    rw [lookup_index] at hks
    split_ifs at hks
    · obtain rfl := Option.some.inj hks
      constructor
      · exact List.ne_nil_of_mem (List.mem_insert_self (a := k))
      · exact (h.nodup _).insert
    · exact h.proper hks

/-- An entry is dropped, and its key with it. -/
theorem erase (h : Inverts tenantOf m ix) (hv : m.lookup k = some v) :
    Inverts tenantOf (m.erase k) (Inner.unindex ix (tenantOf v) k) := by
  constructor
  · intro tenant k'
    rw [lookup_unindex, HashMap.lookup_erase']
    have hothers := h.exact tenant k'
    by_cases htenant : tenant = tenantOf v
    · subst htenant
      have hset : (if tenantOf v = tenantOf v then (ix.lookup (tenantOf v)).bind fun ks ↦
            if (ks.erase k).isEmpty then none else some (ks.erase k)
          else ix.lookup (tenantOf v)).getD [] = ((ix.lookup (tenantOf v)).getD []).erase k := by
        rw [if_pos rfl]
        cases ix.lookup (tenantOf v) with
        | none => rfl
        | some ks =>
            simp only [Option.bind_some]
            split_ifs with hempty
            · exact (List.isEmpty_iff.mp hempty).symm
            · rfl
      rw [hset, (h.nodup _).mem_erase_iff, hothers]
      split_ifs with hk' <;> simp [hk']
    · rw [if_neg htenant, hothers]
      split_ifs with hk'
      · constructor
        · rintro ⟨v', hv', rfl⟩
          rw [hk', hv] at hv'
          exact absurd (congrArg tenantOf (Option.some.inj hv').symm) htenant
        · rintro ⟨v', hv', -⟩
          cases hv'
      · exact Iff.rfl
  · intro tenant ks hks
    rw [lookup_unindex] at hks
    split_ifs at hks
    · obtain ⟨ks', hks', hleft⟩ := Option.bind_eq_some_iff.mp hks
      split_ifs at hleft with hempty
      obtain rfl := Option.some.inj hleft
      constructor
      · intro hnil
        exact hempty (List.isEmpty_iff.mpr hnil)
      · exact (h.proper hks').2.erase k
    · exact h.proper hks

/-- A tenant's set is as long as the entries of the tenant are many. -/
theorem length_eq (h : Inverts tenantOf m ix) (tenant : TenantId) :
    ((ix.lookup tenant).getD []).length =
      ((HashMap.values m).filter fun v ↦ tenantOf v = tenant).length := by
  have hkeys : ((m.entries.filter fun e ↦ tenantOf e.2 = tenant).map Sigma.fst).Nodup :=
    List.Nodup.sublist (List.filter_sublist.map Sigma.fst) m.nodupKeys
  have hperm : ((ix.lookup tenant).getD []).Perm
      ((m.entries.filter fun e ↦ tenantOf e.2 = tenant).map Sigma.fst) := by
    apply (List.perm_ext_iff_of_nodup (h.nodup tenant) hkeys).mpr
    intro k
    rw [h.exact]
    simp only [List.mem_map, List.mem_filter, decide_eq_true_eq]
    constructor
    · rintro ⟨v, hv, ht⟩
      exact ⟨⟨k, v⟩, ⟨(HashMap.mem_entries_iff m k v).mpr hv, ht⟩, rfl⟩
    · rintro ⟨⟨k', v⟩, ⟨hmem, ht⟩, rfl⟩
      exact ⟨v, (HashMap.mem_entries_iff m k' v).mp hmem, ht⟩
  rw [hperm.length_eq, List.length_map, HashMap.values, List.filter_map, List.length_map]
  rfl

end Inverts

end Inverts

end NovaChat

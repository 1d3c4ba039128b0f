import Mathlib.Data.List.Induction
import Mathlib.Data.List.Nodup

/-!
# Tables with one row for each key

Events arrive one after the other, and a table with room for `cap` rows keeps one
row for each key: the keys in the order in which they were first seen, until the
table is full.  A key that comes when the table is full is never kept.
-/

namespace ShellXv6.Tally

variable {ε κ : Type*} [DecidableEq κ] (key : ε → κ) (cap : ℕ)

/-- The keys of the events, in the order in which they were first seen. -/
def keys (events : List ε) : List κ := (events.map key).eraseDups

/-- The keys that have a row. -/
def kept (events : List ε) : List κ := (keys key events).take cap

variable {key cap} {events : List ε}

theorem mem_keys {k : κ} : k ∈ keys key events ↔ ∃ e ∈ events, key e = k := by
  rw [keys, List.mem_eraseDups, List.mem_map]

theorem keys_concat (e : ε) :
    keys key (events ++ [e]) =
      if key e ∈ keys key events then keys key events else keys key events ++ [key e] := by
  have hmem : key e ∈ keys key events ↔ (events.map key).elem (key e) = true := by
    rw [keys, List.mem_eraseDups, List.elem_iff]
  rw [keys, List.map_append, List.eraseDups_append, List.map_singleton, List.removeAll,
    ← keys]
  by_cases h : key e ∈ keys key events
  · rw [if_pos h, List.filter_cons_of_neg (by rw [hmem.mp h]; decide)]
    exact List.append_nil _
  · have hnot : (events.map key).elem (key e) = false := Bool.eq_false_iff.mpr (mt hmem.mpr h)
    rw [if_neg h, List.filter_cons_of_pos (by rw [hnot]; rfl)]
    rfl

theorem keys_concat_of_not_mem {e : ε} (h : key e ∉ keys key events) :
    keys key (events ++ [e]) = keys key events ++ [key e] := by
  rw [keys_concat, if_neg h]

theorem nodup_keys (events : List ε) : (keys key events).Nodup := by
  induction events using List.reverseRecOn with
  | nil => exact List.nodup_nil
  | append_singleton events e ih =>
      rw [keys_concat]
      split
      · exact ih
      · rename_i hnew
        exact List.nodup_append.mpr ⟨ih, List.nodup_singleton _, by
          intro a ha b hb
          rw [List.mem_singleton.mp hb]
          exact fun heq => hnew (heq ▸ ha)⟩

/-- Keys that all differ are kept in their order. -/
theorem keys_of_nodup (h : (events.map key).Nodup) : keys key events = events.map key := by
  induction events using List.reverseRecOn with
  | nil => rfl
  | append_singleton events e ih =>
      rw [List.map_append, List.map_singleton] at h ⊢
      obtain ⟨hnodup, -, hdisjoint⟩ := List.nodup_append.mp h
      have hnew : key e ∉ keys key events := by
        rw [ih hnodup]
        exact fun hmem => hdisjoint _ hmem _ (List.mem_singleton_self _) rfl
      rw [keys_concat_of_not_mem hnew, ih hnodup]

theorem idxOf_lt_of_keys {a b : κ} (ha : a ∈ events.map key) (hb : b ∈ events.map key)
    (hlt : (keys key events).idxOf a < (keys key events).idxOf b) :
    (events.map key).idxOf a < (events.map key).idxOf b := by
  induction events using List.reverseRecOn with
  | nil => cases ha
  | append_singleton events e ih =>
      have hkeys {k : κ} : k ∈ keys key events ↔ k ∈ events.map key := by
        rw [keys, List.mem_eraseDups]
      rw [List.map_append, List.map_singleton] at ha hb ⊢
      rw [List.mem_append, List.mem_singleton] at ha hb
      rw [keys_concat] at hlt
      split_ifs at hlt with hold
      · have hold' := hkeys.mp hold
        have ha' : a ∈ events.map key := ha.elim id fun heq => heq ▸ hold'
        have hb' : b ∈ events.map key := hb.elim id fun heq => heq ▸ hold'
        rw [List.idxOf_append_of_mem ha', List.idxOf_append_of_mem hb']
        exact ih ha' hb' hlt
      · have hnew : key e ∉ events.map key := mt hkeys.mpr hold
        by_cases hb' : b ∈ events.map key
        · have ha' : a ∈ events.map key := by
            refine ha.resolve_right fun heq => ?_
            rw [heq, List.idxOf_append_of_notMem hold,
              List.idxOf_append_of_mem (hkeys.mpr hb')] at hlt
            have := List.idxOf_lt_length_of_mem (hkeys.mpr hb')
            omega
          rw [List.idxOf_append_of_mem (hkeys.mpr ha'), List.idxOf_append_of_mem (hkeys.mpr hb')]
            at hlt
          rw [List.idxOf_append_of_mem ha', List.idxOf_append_of_mem hb']
          exact ih ha' hb' hlt
        · obtain rfl := hb.resolve_left hb'
          have ha' : a ∈ events.map key := by
            refine ha.resolve_right fun heq => ?_
            rw [heq] at hlt
            exact Nat.lt_irrefl _ hlt
          have := List.idxOf_lt_length_of_mem ha'
          rw [List.idxOf_append_of_mem ha', List.idxOf_append_of_notMem hnew]
          omega

theorem nodup_kept (events : List ε) : (kept key cap events).Nodup :=
  (nodup_keys events).sublist (List.take_sublist _ _)

theorem mem_of_mem_kept {k : κ} (h : k ∈ kept key cap events) : ∃ e ∈ events, key e = k :=
  mem_keys.mp (List.mem_of_mem_take h)

/-- What an event does to the keys: a new one gets a row if there is room. -/
theorem kept_concat (e : ε) :
    kept key cap (events ++ [e]) =
      if key e ∉ kept key cap events ∧ (kept key cap events).length < cap then
        kept key cap events ++ [key e]
      else kept key cap events := by
  have hlen : (kept key cap events).length = min cap (keys key events).length :=
    List.length_take
  by_cases hroom : (keys key events).length < cap
  · have hall : kept key cap events = keys key events := List.take_of_length_le (Nat.le_of_lt hroom)
    rw [kept, keys_concat, hall]
    split
    · rename_i hmem
      rw [if_neg (fun h => h.1 hmem), List.take_of_length_le (Nat.le_of_lt hroom)]
    · rename_i hnew
      rw [if_pos ⟨hnew, hroom⟩, List.take_of_length_le]
      rw [List.length_append]
      exact hroom
  · rw [if_neg (by omega), kept, keys_concat]
    split
    · rfl
    · rw [List.take_append_of_le_length (Nat.le_of_not_lt hroom)]
      rfl

end ShellXv6.Tally

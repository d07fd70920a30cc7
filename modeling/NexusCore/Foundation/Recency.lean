import Mathlib

/-!
# Maps of last times

A map holds the last time at which each key was touched.  From time to time the entries that
are no later than some cutoff are dropped, so the map does not know the past, but a part of it.

`Tracks m past horizon` says which part: an entry is the last touch of its key in the whole
past, and no key that was touched after the horizon is without an entry.  A touch that is no
earlier than the others keeps it (`Tracks.touch`), so does a cutoff at the horizon
(`Tracks.expire`), and the horizon may move on (`Tracks.mono`).  After a cutoff the keys of the
map are those that were touched later (`isSome_expire`), whatever was dropped before.
-/

namespace Foundation.Recency

variable {K T : Type*} [LinearOrder T]

/-- A key is touched. -/
def touch [DecidableEq K] (m : K → Option T) (k : K) (t : T) : K → Option T :=
  Function.update m k (some t)

/-- The entries that are not later than the cutoff are dropped. -/
def expire (m : K → Option T) (cutoff : T) : K → Option T :=
  fun k => (m k).filter fun t => cutoff < t

/-- What a map knows of all touches so far. -/
structure Tracks (m : K → Option T) (past : List (K × T)) (horizon : T) : Prop where
  /-- an entry is the last touch of its key -/
  latest : ∀ k t, m k = some t → (k, t) ∈ past ∧ ∀ t', (k, t') ∈ past → t' ≤ t
  /-- a key that was touched after the horizon has an entry -/
  kept : ∀ k t, (k, t) ∈ past → horizon < t → (m k).isSome

variable {m : K → Option T} {past : List (K × T)} {horizon horizon' : T}

theorem Tracks.init (horizon : T) : Tracks (fun _ : K => none) [] horizon where
  latest := nofun
  kept := nofun

theorem Tracks.mono (h : Tracks m past horizon) (hle : horizon ≤ horizon') :
    Tracks m past horizon' where
  latest := h.latest
  kept := fun k t hmem hlt => h.kept k t hmem (lt_of_le_of_lt hle hlt)

/-- A touch at a time that no other one is later than. -/
theorem Tracks.touch [DecidableEq K] (h : Tracks m past horizon) (k : K) {t : T}
    (hlast : ∀ e ∈ past, e.2 ≤ t) :
    Tracks (touch m k t) (past ++ [(k, t)]) horizon where
  latest := by
    intro k' t' (hentry : Function.update m k (some t) k' = some t')
    by_cases hk : k' = k
    · subst hk
      rw [Function.update_self] at hentry
      cases hentry
      refine ⟨List.mem_append_right _ (List.mem_singleton_self _), ?_⟩
      intro t' hmem
      rcases List.mem_append.mp hmem with hold | hnew
      · exact hlast _ hold
      · cases List.mem_singleton.mp hnew
        exact le_refl t
    · rw [Function.update_of_ne hk] at hentry
      have hold := h.latest k' t' hentry
      refine ⟨List.mem_append_left _ hold.1, ?_⟩
      intro t'' hmem
      rcases List.mem_append.mp hmem with hin | hnew
      · exact hold.2 t'' hin
      · cases List.mem_singleton.mp hnew
        exact absurd rfl hk
  kept := by
    intro k' t' hmem hlt
    show (Function.update m k (some t) k').isSome
    by_cases hk : k' = k
    · rw [hk, Function.update_self]
      rfl
    · rw [Function.update_of_ne hk]
      rcases List.mem_append.mp hmem with hold | hnew
      · exact h.kept k' t' hold hlt
      · cases List.mem_singleton.mp hnew
        exact absurd rfl hk

theorem expire_eq_some {k : K} {t : T} :
    expire m horizon k = some t ↔ m k = some t ∧ horizon < t := by
  rw [expire, Option.filter_eq_some_iff, decide_eq_true_iff]

/-- **After a cutoff** the map has the keys that were touched later. -/
theorem isSome_expire (h : Tracks m past horizon) (k : K) :
    (expire m horizon k).isSome ↔ ∃ t, (k, t) ∈ past ∧ horizon < t := by
  constructor
  · intro hsome
    obtain ⟨t, ht⟩ := Option.isSome_iff_exists.mp hsome
    have hentry := expire_eq_some.mp ht
    exact ⟨t, (h.latest k t hentry.1).1, hentry.2⟩
  · rintro ⟨t, hmem, hlt⟩
    obtain ⟨last, hlast⟩ := Option.isSome_iff_exists.mp (h.kept k t hmem hlt)
    -- the entry is no earlier than this touch
    have hle : t ≤ last := (h.latest k last hlast).2 t hmem
    exact Option.isSome_iff_exists.mpr
      ⟨last, expire_eq_some.mpr ⟨hlast, lt_of_lt_of_le hlt hle⟩⟩

theorem Tracks.expire (h : Tracks m past horizon) :
    Tracks (expire m horizon) past horizon where
  latest := fun k t hentry => h.latest k t (expire_eq_some.mp hentry).1
  kept := fun k t hmem hlt => (isSome_expire h k).mpr ⟨t, hmem, hlt⟩

end Foundation.Recency

import Mathlib.Logic.Function.Basic
import Mathlib.Tactic.Common

namespace SwiftBSD.Lib.WriteBack

structure Line (K V : Type) where
  key : K
  value : V
  dirty : Bool

variable {I K V : Type} {line line' : I → Option (Line K V)} {store store' L : K → V} {i j : I} {k : K} {v : V}
  {l l' : Line K V}

/-- A key is in one line at most, the lines hold the contents, and where the store differs from them a dirty line makes up for it. -/
structure Represents (line : I → Option (Line K V)) (store L : K → V) : Prop where
  unique : ∀ i j l l', line i = some l → line j = some l' → l.key = l'.key → i = j
  value : ∀ i l, line i = some l → l.value = L l.key
  backed : ∀ k, store k = L k ∨ ∃ i l, line i = some l ∧ l.key = k ∧ l.dirty = true

theorem represents_empty (empty : ∀ i, line i = none) : Represents line store store where
  unique := fun i _ _ _ here => by rw [empty i] at here; cases here
  value := fun i _ here => by rw [empty i] at here; cases here
  backed := fun _ => .inl rfl

section
variable (rep : Represents line store L)
include rep

theorem Represents.clean (here : line i = some l) (clean : l.dirty = false) : l.value = store l.key := by
  rcases rep.backed l.key with same | ⟨j, l', there, key, dirty⟩
  · rw [same, rep.value i l here]
  · obtain rfl := rep.unique j i l' l there here key
    obtain rfl := Option.some.inj (there.symm.trans here)
    rw [clean] at dirty
    cases dirty

theorem Represents.absent (none : ∀ i l, line i = some l → l.key ≠ k) : store k = L k := by
  rcases rep.backed k with same | ⟨i, l, here, key, -⟩
  · exact same
  · exact absurd key (none i l here)

theorem Represents.evict (others : ∀ j, j ≠ i → line' j = line j) (gone : line' i = none)
    (written : ∀ k, store' k = store k ∨ store' k = L k)
    (back : ∀ l, line i = some l → l.dirty = true → store' l.key = L l.key) : Represents line' store' L := by
  have old {j : I} {l : Line K V} (here : line' j = some l) : line j = some l := by
    by_cases same : j = i
    · rw [same, gone] at here
      cases here
    · rwa [others j same] at here
  refine ⟨fun j j' l l' here here' => rep.unique j j' l l' (old here) (old here'), fun j l here => rep.value j l (old here), fun k => ?_⟩
  rcases written k with same | now
  swap
  · exact .inl now
  rw [same]
  rcases rep.backed k with equal | ⟨j, l, here, key, dirty⟩
  · exact .inl equal
  · by_cases evicted : j = i
    · subst evicted
      left
      rw [← same, ← key]
      exact back l here dirty
    · exact .inr ⟨j, l, (others j evicted).trans here, key, dirty⟩

theorem Represents.fill (others : ∀ j, j ≠ i → line' j = line j) (blank : line i = none) (absent : ∀ j l, line j = some l → l.key ≠ k)
    (filled : line' i = some ⟨k, store k, false⟩) : Represents line' store L := by
  have cases_ {j : I} {l : Line K V} (here : line' j = some l) : j = i ∧ l = ⟨k, store k, false⟩ ∨ j ≠ i ∧ line j = some l := by
    by_cases same : j = i
    · rw [same, filled] at here
      exact .inl ⟨same, (Option.some.inj here).symm⟩
    · rw [others j same] at here
      exact .inr ⟨same, here⟩
  refine ⟨fun j j' l l' here here' key => ?_, fun j l here => ?_, fun k' => ?_⟩
  · rcases cases_ here with ⟨rfl, rfl⟩ | ⟨-, old⟩ <;> rcases cases_ here' with ⟨rfl, rfl⟩ | ⟨-, old'⟩
    · rfl
    · exact absurd key.symm (absent j' l' old')
    · exact absurd key (absent j l old)
    · exact rep.unique j j' l l' old old' key
  · rcases cases_ here with ⟨rfl, rfl⟩ | ⟨-, old⟩
    · exact rep.absent absent
    · exact rep.value j l old
  · rcases rep.backed k' with same | ⟨j, l, here, key, dirty⟩
    · exact .inl same
    · refine .inr ⟨j, l, (others j ?_).trans here, key, dirty⟩
      rintro rfl
      rw [blank] at here
      cases here

theorem Represents.modify [DecidableEq K] (others : ∀ j, j ≠ i → line' j = line j) (here : line i = some l) (now : line' i = some ⟨l.key, v, true⟩) :
    Represents line' store (Function.update L l.key v) := by
  have cases_ {j : I} {m : Line K V} (at_ : line' j = some m) : j = i ∧ m = ⟨l.key, v, true⟩ ∨ j ≠ i ∧ line j = some m := by
    by_cases same : j = i
    · rw [same, now] at at_
      exact .inl ⟨same, (Option.some.inj at_).symm⟩
    · rw [others j same] at at_
      exact .inr ⟨same, at_⟩
  refine ⟨fun j j' m m' at_ at' key => ?_, fun j m at_ => ?_, fun k => ?_⟩
  · rcases cases_ at_ with ⟨rfl, rfl⟩ | ⟨-, old⟩ <;> rcases cases_ at' with ⟨rfl, rfl⟩ | ⟨-, old'⟩
    · rfl
    · exact rep.unique j j' l m' here old' key
    · exact rep.unique j j' m l old here key
    · exact rep.unique j j' m m' old old' key
  · rcases cases_ at_ with ⟨rfl, rfl⟩ | ⟨other, old⟩
    · change v = Function.update L l.key v l.key
      rw [Function.update_self]
    · rw [Function.update_of_ne fun key => other (rep.unique j i m l old here key)]
      exact rep.value j m old
  · by_cases same : k = l.key
    · exact .inr ⟨i, _, now, same.symm, rfl⟩
    · rw [Function.update_of_ne same]
      rcases rep.backed k with equal | ⟨j, m, at_, key, dirty⟩
      · exact .inl equal
      · refine .inr ⟨j, m, (others j ?_).trans at_, key, dirty⟩
        rintro rfl
        obtain rfl := Option.some.inj (at_.symm.trans here)
        exact same key.symm

theorem Represents.writeBack (others : ∀ j, j ≠ i → line' j = line j) (here : line i = some l)
    (now : line' i = some { l with dirty := false }) (rest : ∀ k, k ≠ l.key → store' k = store k) (back : store' l.key = L l.key) :
    Represents line' store' L := by
  have old {j : I} {m : Line K V} (at_ : line' j = some m) : ∃ m', line j = some m' ∧ m'.key = m.key ∧ m'.value = m.value := by
    by_cases same : j = i
    · subst same
      obtain rfl := Option.some.inj (now.symm.trans at_)
      exact ⟨l, here, rfl, rfl⟩
    · rw [others j same] at at_
      exact ⟨m, at_, rfl, rfl⟩
  refine ⟨fun j j' m m' at_ at' key => ?_, fun j m at_ => ?_, fun k => ?_⟩
  · obtain ⟨n, was, same, -⟩ := old at_
    obtain ⟨n', was', same', -⟩ := old at'
    exact rep.unique j j' n n' was was' (by rw [same, same', key])
  · obtain ⟨n, was, same, value⟩ := old at_
    rw [← value, ← same]
    exact rep.value j n was
  · by_cases same : k = l.key
    · rw [same]
      exact .inl back
    · rw [rest k same]
      rcases rep.backed k with equal | ⟨j, m, at_, key, dirty⟩
      · exact .inl equal
      · refine .inr ⟨j, m, (others j ?_).trans at_, key, dirty⟩
        rintro rfl
        obtain rfl := Option.some.inj (at_.symm.trans here)
        exact same key.symm

end

end SwiftBSD.Lib.WriteBack

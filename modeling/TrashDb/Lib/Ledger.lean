import Mathlib.Algebra.BigOperators.Group.List.Basic
import Mathlib.Algebra.Ring.Nat
import TrashDb.Lib.Sum
import TrashDb.Lib.Word

/-!
This module contains a budget of 32 bits that clients share. A client is granted an amount, creates a
resource for it, and is charged when it links the resource for others to use. The resource is closed
by a client that takes it out of the list again and gets back what the resource says its size is.

`Owned` are the rules for who has a resource and hold without any condition. `Budget` are the bounds
on the numbers. They need that what is granted fits into what neither was charged nor is granted to
others, and that sizes and amounts are related by `R`. It is used with `≤` and with `=`.
-/

namespace Ledger

open Function Word

variable {κ : Type u} {ρ : Type v}

inductive Phase (ρ : Type v) where
  | none
  | granted (size amount : Nat)
  | held (r : ρ) (amount : Nat)
  | closing (r : ρ)

namespace Phase

def owned : Phase ρ → Option ρ
  | .held r _ | .closing r => some r
  | _ => .none

def reserved : Phase ρ → Nat
  | .granted _ amount | .held _ amount => amount
  | _ => 0

def refund (sizeOf : ρ → Nat) : Phase ρ → Nat
  | .closing r => sizeOf r
  | _ => 0

end Phase

structure State (κ : Type u) (ρ : Type v) where
  limit : Nat
  total : Nat
  linked : List ρ
  size : ρ → Option Nat
  phase : κ → Phase ρ
  clients : Finset κ

namespace State

variable (L : State κ ρ)

def sizeOf (r : ρ) : Nat := (L.size r).getD 0

def reserved : Nat := ∑ k ∈ L.clients, (L.phase k).reserved

def refund : Nat := ∑ k ∈ L.clients, (L.phase k).refund L.sizeOf

def sizes : Nat := (L.linked.map L.sizeOf).sum

def setPhase [DecidableEq κ] (k : κ) (p : Phase ρ) : State κ ρ :=
  { L with phase := update L.phase k p }

end State

section

variable {L L' : State κ ρ}

theorem sizes_congr (hsize : ∀ r, r ∈ L.linked → L'.sizeOf r = L.sizeOf r)
    (hlinked : L'.linked = L.linked)
    : L'.sizes = L.sizes := by
  unfold State.sizes
  rw [hlinked, List.map_congr_left hsize]

theorem refund_congr (hsize : ∀ k r, L.phase k = .closing r → L'.sizeOf r = L.sizeOf r)
    (hphase : L'.phase = L.phase) (hclients : L'.clients = L.clients)
    : L'.refund = L.refund := by
  unfold State.refund
  rw [hphase, hclients]
  apply Finset.sum_congr rfl
  intro i _
  cases hi : L.phase i with
  | closing r => apply hsize i r hi
  | _ => rfl

end

variable [DecidableEq κ]

inductive Event (κ : Type u) (ρ : Type v) where
  | stay
  | enter (k : κ)
  | grant (k : κ) (size amount : Nat)
  | create (k : κ) (r : ρ)
  | link (k : κ)
  | unlink (k : κ) (r : ρ)
  | release (k : κ)

inductive Step [DecidableEq ρ] (L : State κ ρ) : Event κ ρ → State κ ρ → Prop where
  | stay : Step L .stay L
  | enter (k : κ) (hk : k ∉ L.clients) : Step L (.enter k) { L with clients := insert k L.clients }
  | grant (k : κ) (size amount : Nat) (hk : k ∈ L.clients) (hphase : L.phase k = .none) :
    Step L (.grant k size amount) (L.setPhase k (.granted size amount))
  | create (k : κ) (r : ρ) (size amount : Nat) (hphase : L.phase k = .granted size amount)
    (hr : L.size r = none) :
    Step L (.create k r)
      ({ L with size := update L.size r (some size) }.setPhase k (.held r amount))
  | link (k : κ) (r : ρ) (amount : Nat) (hphase : L.phase k = .held r amount) :
    Step L (.link k)
      ({ L with linked := L.linked ++ [r], total := add32 L.total amount }.setPhase k .none)
  | unlink (k : κ) (r : ρ) (hk : k ∈ L.clients) (hphase : L.phase k = .none) (hr : r ∈ L.linked) :
    Step L (.unlink k r) ({ L with linked := L.linked.erase r }.setPhase k (.closing r))
  | release (k : κ) (r : ρ) (size : Nat) (hphase : L.phase k = .closing r)
    (hr : L.size r = some size) :
    Step L (.release k)
      ({ L with size := update L.size r none, total := sub32 L.total size }.setPhase k .none)

structure Owned (L : State κ ρ) : Prop where
  outside : ∀ k, k ∉ L.clients → L.phase k = .none
  nodup : L.linked.Nodup
  linked : ∀ r, r ∈ L.linked → L.size r ≠ none
  owned : ∀ k r, (L.phase k).owned = some r → L.size r ≠ none ∧ r ∉ L.linked
  unique : ∀ k k' r, (L.phase k).owned = some r → (L.phase k').owned = some r → k = k'

namespace Owned

variable {L L' : State κ ρ} {k : κ}

theorem mem_clients (h : Owned L) (hk : L.phase k ≠ .none) : k ∈ L.clients := by
  by_contra hmem
  apply hk (h.outside k hmem)

theorem setPhase {p : Phase ρ} (h : Owned L) (hk : k ∈ L.clients) (hp : p.owned = (L.phase k).owned)
    : Owned (L.setPhase k p) := by
  have howned : ∀ i, ((L.setPhase k p).phase i).owned = (L.phase i).owned := by
    intro i
    simp only [State.setPhase, update_apply]
    split
    . next heq => rw [heq, hp]
    . rfl
  constructor
  . intro i hi
    simp only [State.setPhase, update_apply] at hi ⊢
    split
    . next heq => exact absurd (heq ▸ hk) hi
    . apply h.outside i hi
  . exact h.nodup
  . exact h.linked
  . intro i r hi
    rw [howned] at hi
    apply h.owned i r hi
  . intro i i' r hi hi'
    rw [howned] at hi hi'
    apply h.unique i i' r hi hi'

theorem create [DecidableEq ρ] {r : ρ} {size amount : Nat} (h : Owned L) (hphase : L.phase k = .granted size amount)
    (hr : L.size r = none)
    : Owned ({ L with size := update L.size r (some size) }.setPhase k (.held r amount)) := by
  have hk : k ∈ L.clients := by
    apply h.mem_clients
    rw [hphase]
    nofun
  have hnot : ∀ i, (L.phase i).owned ≠ some r := by
    intro i hi
    apply (h.owned i r hi).1 hr
  constructor
  . intro i hi
    simp only [State.setPhase, update_apply] at hi ⊢
    split
    . next heq => exact absurd (heq ▸ hk) hi
    . apply h.outside i hi
  . exact h.nodup
  . intro r' hr'
    simp only [State.setPhase, update_apply]
    split
    . nofun
    . apply h.linked r' hr'
  . intro i r' hi
    simp only [State.setPhase, update_apply] at hi ⊢
    split at hi
    . cases hi
      rw [if_pos rfl]
      refine ⟨by nofun, ?_⟩
      intro hmem
      apply h.linked r hmem hr
    . split
      . next heq => exact absurd (heq ▸ hi) (hnot i)
      . apply h.owned i r' hi
  . intro i i' r' hi hi'
    simp only [State.setPhase, update_apply] at hi hi'
    split at hi <;> split at hi'
    . next heq heq' => rw [heq, heq']
    . cases hi
      exact absurd hi' (hnot i')
    . cases hi'
      exact absurd hi (hnot i)
    . apply h.unique i i' r' hi hi'

theorem link {r : ρ} {amount : Nat} (h : Owned L) (hphase : L.phase k = .held r amount)
    : Owned
        ({ L with linked := L.linked ++ [r], total := add32 L.total amount }.setPhase k .none) := by
  have hown : (L.phase k).owned = some r := by
    rw [hphase]
    rfl
  constructor
  . intro i hi
    simp only [State.setPhase, update_apply] at hi ⊢
    split
    . rfl
    . apply h.outside i hi
  . simp only [State.setPhase]
    rw [List.nodup_append]
    refine ⟨h.nodup, List.nodup_singleton r, ?_⟩
    intro a ha b hb
    rw [List.mem_singleton] at hb
    subst hb
    rintro rfl
    apply (h.owned k a hown).2 ha
  . intro r' hr'
    simp only [State.setPhase, List.mem_append, List.mem_singleton] at hr'
    rcases hr' with hr' | rfl
    . apply h.linked r' hr'
    . apply (h.owned k r' hown).1
  . intro i r' hi
    simp only [State.setPhase, update_apply, List.mem_append, List.mem_singleton] at hi ⊢
    split at hi
    . cases hi
    . next hne =>
      refine ⟨(h.owned i r' hi).1, ?_⟩
      rintro (hmem | rfl)
      . apply (h.owned i r' hi).2 hmem
      . apply hne (h.unique i k r' hi hown)
  . intro i i' r' hi hi'
    simp only [State.setPhase, update_apply] at hi hi'
    split at hi
    . cases hi
    . split at hi'
      . cases hi'
      . apply h.unique i i' r' hi hi'

theorem unlink [DecidableEq ρ] {r : ρ} (h : Owned L) (hk : k ∈ L.clients) (hr : r ∈ L.linked)
    : Owned ({ L with linked := L.linked.erase r }.setPhase k (.closing r)) := by
  have hnot : ∀ i, (L.phase i).owned ≠ some r := by
    intro i hi
    apply (h.owned i r hi).2 hr
  constructor
  . intro i hi
    simp only [State.setPhase, update_apply] at hi ⊢
    split
    . next heq => exact absurd (heq ▸ hk) hi
    . apply h.outside i hi
  . apply h.nodup.erase
  . intro r' hr'
    apply h.linked r' (List.mem_of_mem_erase hr')
  . intro i r' hi
    simp only [State.setPhase, update_apply] at hi ⊢
    split at hi
    . cases hi
      exact ⟨h.linked r hr, h.nodup.not_mem_erase⟩
    . exact ⟨(h.owned i r' hi).1, fun hmem => (h.owned i r' hi).2 (List.mem_of_mem_erase hmem)⟩
  . intro i i' r' hi hi'
    simp only [State.setPhase, update_apply] at hi hi'
    split at hi <;> split at hi'
    . next heq heq' => rw [heq, heq']
    . cases hi
      exact absurd hi' (hnot i')
    . cases hi'
      exact absurd hi (hnot i)
    . apply h.unique i i' r' hi hi'

theorem release [DecidableEq ρ] {r : ρ} {size : Nat} (h : Owned L) (hphase : L.phase k = .closing r)
    : Owned
        ({ L with
          size := update L.size r none
          total := sub32 L.total size }.setPhase k .none) := by
  have hown : (L.phase k).owned = some r := by
    rw [hphase]
    rfl
  constructor
  . intro i hi
    simp only [State.setPhase, update_apply] at hi ⊢
    split
    . rfl
    . apply h.outside i hi
  . exact h.nodup
  . intro r' hr'
    simp only [State.setPhase, update_apply]
    split
    . next heq => exact absurd (heq ▸ hr') (h.owned k r hown).2
    . apply h.linked r' hr'
  . intro i r' hi
    simp only [State.setPhase, update_apply] at hi ⊢
    split at hi
    . cases hi
    . next hne =>
      split
      . next heq => exact absurd (h.unique i k r (heq ▸ hi) hown) hne
      . apply h.owned i r' hi
  . intro i i' r' hi hi'
    simp only [State.setPhase, update_apply] at hi hi'
    split at hi
    . cases hi
    . split at hi'
      . cases hi'
      . apply h.unique i i' r' hi hi'

theorem step [DecidableEq ρ] {e : Event κ ρ} (h : Owned L) (hs : Step L e L') : Owned L' := by
  cases hs with
  | stay => exact h
  | enter k hk =>
    refine ⟨?_, h.nodup, h.linked, h.owned, h.unique⟩
    intro i hi
    apply h.outside i
    intro hmem
    apply hi (Finset.mem_insert_of_mem hmem)
  | grant k size amount hk hphase =>
    apply h.setPhase hk
    rw [hphase]
    rfl
  | create k r size amount hphase hr => apply h.create hphase hr
  | link k r amount hphase => apply h.link hphase
  | unlink k r hk hphase hr => apply h.unlink hk hr
  | release k r size hphase hr => apply h.release hphase

end Owned

/--
What is granted is free, and the size of the resource that it is granted for is related to it.
-/
def Event.Granted (R : Nat → Nat → Prop) (L : State κ ρ) : Event κ ρ → Prop
  | .grant _ size amount => L.total + L.reserved + amount ≤ L.limit ∧ R size amount
  | _ => True

structure Budget (R : Nat → Nat → Prop) (L : State κ ρ) : Prop where
  granted : ∀ k size amount, L.phase k = .granted size amount → R size amount
  held : ∀ k r amount, L.phase k = .held r amount → R (L.sizeOf r) amount
  fits : L.total + L.reserved ≤ L.limit
  covered : R (L.sizes + L.refund) L.total

section

variable {L : State κ ρ} {k : κ}

theorem reserved_setPhase {p : Phase ρ} (hk : k ∈ L.clients)
    : (L.setPhase k p).reserved + (L.phase k).reserved = L.reserved + p.reserved :=
  Finset.sum_update_add hk L.phase p Phase.reserved

theorem refund_setPhase {p : Phase ρ} (hk : k ∈ L.clients)
    : (L.setPhase k p).refund + (L.phase k).refund L.sizeOf = L.refund + p.refund L.sizeOf :=
  Finset.sum_update_add hk L.phase p (Phase.refund L.sizeOf)

end

namespace Budget

variable {R : Nat → Nat → Prop} {L L' : State κ ρ} {k : κ}

variable (hle : ∀ {a b}, R a b → a ≤ b) (hadd : ∀ {a b c d}, R a b → R c d → R (a + c) (b + d))
  (hsub : ∀ {a b c}, R (a + c) b → R a (b - c))

theorem enter (h : Budget R L) (ho : Owned L) (hk : k ∉ L.clients)
    : Budget R { L with clients := insert k L.clients } := by
  have hphase := ho.outside k hk
  have hreserved : { L with clients := insert k L.clients }.reserved = L.reserved := by
    unfold State.reserved
    rw [Finset.sum_insert hk, hphase]
    apply Nat.zero_add
  have hrefund : { L with clients := insert k L.clients }.refund = L.refund := by
    unfold State.refund
    rw [Finset.sum_insert hk, hphase]
    apply Nat.zero_add
  refine ⟨h.granted, h.held, ?_, ?_⟩
  . rw [hreserved]
    apply h.fits
  . rw [hrefund]
    apply h.covered

theorem grant {size amount : Nat} (h : Budget R L) (hk : k ∈ L.clients) (hphase : L.phase k = .none)
    (hgrant : Event.Granted R L (.grant k size amount))
    : Budget R (L.setPhase k (.granted size amount)) := by
  have hreserved := reserved_setPhase (p := .granted size amount) hk
  have hrefund := refund_setPhase (p := .granted size amount) hk
  rw [hphase] at hreserved hrefund
  simp only [Phase.reserved, Phase.refund, Nat.add_zero] at hreserved hrefund
  constructor
  . intro i size' amount' hi
    simp only [State.setPhase, update_apply] at hi
    split at hi
    . cases hi
      apply hgrant.2
    . apply h.granted i size' amount' hi
  . intro i r amount' hi
    simp only [State.setPhase, update_apply] at hi
    split at hi
    . cases hi
    . apply h.held i r amount' hi
  . have := hgrant.1
    simp only [State.setPhase] at hreserved ⊢
    omega
  . rw [hrefund]
    apply h.covered

theorem create [DecidableEq ρ] {r : ρ} {size amount : Nat} (h : Budget R L) (ho : Owned L)
    (hphase : L.phase k = .granted size amount) (hr : L.size r = none)
    : Budget R ({ L with size := update L.size r (some size) }.setPhase k (.held r amount)) := by
  have hk : k ∈ L.clients := by
    apply ho.mem_clients
    rw [hphase]
    nofun
  let L' : State κ ρ := { L with size := update L.size r (some size) }
  have hsize : ∀ r', r' ≠ r → L'.sizeOf r' = L.sizeOf r' := by
    intro r' hne
    simp only [L', State.sizeOf, update_of_ne hne]
  have hlinked : L'.sizes = L.sizes := by
    refine sizes_congr ?_ rfl
    intro r' hr'
    apply hsize
    rintro rfl
    apply ho.linked r' hr' hr
  have hclosing : L'.refund = L.refund := by
    refine refund_congr ?_ rfl rfl
    intro i r' hi
    apply hsize
    rintro rfl
    apply (ho.owned i r' (by rw [hi]; rfl)).1 hr
  have hreserved := reserved_setPhase (L := L') (p := .held r amount) hk
  have hrefund := refund_setPhase (L := L') (p := .held r amount) hk
  have hphase' : L'.phase k = .granted size amount := hphase
  rw [hphase'] at hreserved hrefund
  simp only [Phase.reserved, Phase.refund, Nat.add_zero] at hreserved hrefund
  constructor
  . intro i size' amount' hi
    simp only [State.setPhase, update_apply] at hi
    split at hi
    . cases hi
    . apply h.granted i size' amount' hi
  . intro i r' amount' hi
    simp only [State.setPhase, update_apply] at hi
    split at hi
    . cases hi
      simp only [State.setPhase, State.sizeOf, update_self, Option.getD_some]
      apply h.granted k size amount hphase
    . have hne : r' ≠ r := by
        rintro rfl
        apply (ho.owned i r' (by rw [hi]; rfl)).1 hr
      show R (L'.sizeOf r') amount'
      rw [hsize r' hne]
      apply h.held i r' amount' hi
  . have hfits := h.fits
    have : L'.reserved = L.reserved := rfl
    show L.total + (L'.setPhase k (.held r amount)).reserved ≤ L.limit
    omega
  . show R (L'.sizes + (L'.setPhase k (.held r amount)).refund) L.total
    rw [hrefund, hlinked, hclosing]
    apply h.covered

include hadd in
theorem link {r : ρ} {amount : Nat} (h : Budget R L) (ho : Owned L) (hlimit : L.limit < 2 ^ 32)
    (hphase : L.phase k = .held r amount)
    : Budget R
        ({ L with linked := L.linked ++ [r], total := add32 L.total amount }.setPhase k .none) := by
  have hk : k ∈ L.clients := by
    apply ho.mem_clients
    rw [hphase]
    nofun
  let L' : State κ ρ := { L with linked := L.linked ++ [r], total := add32 L.total amount }
  have hreserved := reserved_setPhase (L := L') (p := .none) hk
  have hrefund := refund_setPhase (L := L') (p := .none) hk
  have hphase' : L'.phase k = .held r amount := hphase
  rw [hphase'] at hreserved hrefund
  simp only [Phase.reserved, Phase.refund, Nat.add_zero] at hreserved hrefund
  have hfits := h.fits
  have hsame : L'.reserved = L.reserved := rfl
  have htotal : add32 L.total amount = L.total + amount := by
    apply add32_of_lt
    omega
  constructor
  . intro i size' amount' hi
    simp only [State.setPhase, update_apply] at hi
    split at hi
    . cases hi
    . apply h.granted i size' amount' hi
  . intro i r' amount' hi
    simp only [State.setPhase, update_apply] at hi
    split at hi
    . cases hi
    . apply h.held i r' amount' hi
  . show add32 L.total amount + (L'.setPhase k .none).reserved ≤ L.limit
    omega
  . show R (L'.sizes + (L'.setPhase k .none).refund) (add32 L.total amount)
    have hsizes : L'.sizes = L.sizes + L.sizeOf r := by
      show ((L.linked ++ [r]).map L.sizeOf).sum = _
      rw [List.map_append, List.sum_append]
      simp [State.sizes]
    have hsame : L'.refund = L.refund := rfl
    rw [htotal, hrefund, hsizes, hsame, Nat.add_right_comm]
    apply hadd h.covered (h.held k r amount hphase)

theorem unlink [DecidableEq ρ] {r : ρ} (h : Budget R L) (hk : k ∈ L.clients) (hphase : L.phase k = .none)
    (hr : r ∈ L.linked)
    : Budget R ({ L with linked := L.linked.erase r }.setPhase k (.closing r)) := by
  let L' : State κ ρ := { L with linked := L.linked.erase r }
  have hreserved := reserved_setPhase (L := L') (p := .closing r) hk
  have hrefund := refund_setPhase (L := L') (p := .closing r) hk
  have hphase' : L'.phase k = .none := hphase
  rw [hphase'] at hreserved hrefund
  simp only [Phase.reserved, Phase.refund, Nat.add_zero] at hreserved hrefund
  constructor
  . intro i size' amount' hi
    simp only [State.setPhase, update_apply] at hi
    split at hi
    . cases hi
    . apply h.granted i size' amount' hi
  . intro i r' amount' hi
    simp only [State.setPhase, update_apply] at hi
    split at hi
    . cases hi
    . apply h.held i r' amount' hi
  . show L.total + (L'.setPhase k (.closing r)).reserved ≤ L.limit
    rw [hreserved]
    apply h.fits
  . show R (L'.sizes + (L'.setPhase k (.closing r)).refund) L.total
    have hsizes : L.sizeOf r + L'.sizes = L.sizes := List.sum_map_erase L.sizeOf hr
    have hsame : L'.refund = L.refund := rfl
    have hsize : L'.sizeOf r = L.sizeOf r := rfl
    have hsum : L'.sizes + (L.refund + L.sizeOf r) = L.sizes + L.refund := by omega
    rw [hrefund, hsame, hsize, hsum]
    apply h.covered

include hle hsub in
theorem release [DecidableEq ρ] {r : ρ} {size : Nat} (h : Budget R L) (ho : Owned L)
    (hphase : L.phase k = .closing r) (hr : L.size r = some size)
    : Budget R
        ({ L with
          size := update L.size r none
          total := sub32 L.total size }.setPhase k .none) := by
  have hown : (L.phase k).owned = some r := by
    rw [hphase]
    rfl
  have hk : k ∈ L.clients := by
    apply ho.mem_clients
    rw [hphase]
    nofun
  have hsize : L.sizeOf r = size := by
    unfold State.sizeOf
    rw [hr]
    rfl
  have hcovered := h.covered
  -- the client gives up its claim first, so that the size of the resource is not needed any more
  have hrefund := refund_setPhase (p := .none) hk
  have hreserved := reserved_setPhase (p := .none) hk
  rw [hphase] at hrefund hreserved
  simp only [Phase.refund, Phase.reserved, Nat.add_zero, hsize] at hrefund hreserved
  let L' : State κ ρ :=
    { L with size := update L.size r none, total := sub32 L.total size }.setPhase k .none
  have hsize' : ∀ r', r' ≠ r → L'.sizeOf r' = L.sizeOf r' := by
    intro r' hne
    simp only [L', State.setPhase, State.sizeOf, update_of_ne hne]
  have hlinked : L'.sizes = L.sizes := by
    refine sizes_congr ?_ rfl
    intro r' hr'
    apply hsize'
    rintro rfl
    apply (ho.owned k r' hown).2 hr'
  have hclosing : L'.refund = (L.setPhase k .none).refund := by
    refine refund_congr ?_ rfl rfl
    intro i r' hi
    simp only [State.setPhase, update_apply] at hi
    split at hi
    . cases hi
    . next hne =>
      apply hsize'
      rintro rfl
      apply hne (ho.unique i k r' (by rw [hi]; rfl) hown)
  have hbound := hle hcovered
  have htotal : sub32 L.total size = L.total - size := by
    apply sub32_of_le
    omega
  constructor
  . intro i size' amount' hi
    simp only [State.setPhase, update_apply] at hi
    split at hi
    . cases hi
    . apply h.granted i size' amount' hi
  . intro i r' amount' hi
    simp only [State.setPhase, update_apply] at hi
    split at hi
    . cases hi
    . next hne =>
      show R (L'.sizeOf r') amount'
      rw [hsize' r']
      . apply h.held i r' amount' hi
      . rintro rfl
        apply hne (ho.unique i k r' (by rw [hi]; rfl) hown)
  . have hfits := h.fits
    show sub32 L.total size + (L.setPhase k .none).reserved ≤ L.limit
    omega
  . show R (L'.sizes + L'.refund) (sub32 L.total size)
    rw [hlinked, hclosing, htotal]
    apply hsub
    rw [Nat.add_assoc, hrefund]
    apply hcovered

include hle hadd hsub in
theorem step [DecidableEq ρ] {e : Event κ ρ} (h : Budget R L) (ho : Owned L) (hlimit : L.limit < 2 ^ 32)
    (hgrant : e.Granted R L) (hs : Step L e L')
    : Budget R L' := by
  cases hs with
  | stay => exact h
  | enter k hk => apply h.enter ho hk
  | grant k size amount hk hphase => apply h.grant hk hphase hgrant
  | create k r size amount hphase hr => apply h.create ho hphase hr
  | link k r amount hphase => apply h.link hadd ho hlimit hphase
  | unlink k r hk hphase hr => apply h.unlink hk hphase hr
  | release k r size hphase hr => apply h.release hle hsub ho hphase hr

end Budget

theorem Step.limit_eq [DecidableEq ρ] {L L' : State κ ρ} {e : Event κ ρ} (hs : Step L e L')
    : L'.limit = L.limit := by
  cases hs <;> rfl

end Ledger

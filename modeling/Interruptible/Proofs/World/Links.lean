import Mathlib.Logic.Relation
import Interruptible.Proofs.World.Stakes
import Interruptible.Proofs.World.TokenBook

/-!
# Links between tokens

A link lets a token, its child, trip when another one trips, its parent. Code makes links and so does the runtime; each of them
is a reaction that stands on the parent until the parent trips or the subscription is dropped. Links may form any directed
graph. This module says what a trip does in such a graph (`World.trip_reaches`): the recursion from child to child ends, even
without the bound on its depth (`World.Trips`), and the tokens that it trips are those that can be reached through links that
stand. `World.Linked` are the worlds that arise when tokens and links are made, subscriptions dropped and tokens tripped in any
order; in these, `interrupt_reaches` describes a trip by the links that have been made and not dropped.
-/

namespace Interruptible

/-- A reaction that is a link: another token trips, and that is all. -/
inductive Reaction.LinksTo (child : TokenId) : Reaction → Prop where
  | code : LinksTo child (.call (.interrupting child))
  | runtime : LinksTo child (.forward child)

namespace Reaction.LinksTo

variable {r : Reaction} {c d : TokenId}

/-- A link that is carried out trips its child, and that is all. -/
theorem run (h : r.LinksTo c) (trip : Tripping) (w : World) : r.run trip w = trip c w := by
  cases h with
  | code => rfl
  | runtime => rfl

/-- A link leads to one token. -/
theorem unique (h : r.LinksTo c) (h' : r.LinksTo d) : c = d := by
  cases h with
  | code => cases h' with | code => rfl
  | runtime => cases h' with | runtime => rfl

end Reaction.LinksTo

/-! ## Trips without a bound -/

mutual
/-- What a trip leads to, told without a bound on its depth. That there is such a world at all means that the recursion ends. -/
inductive World.Trips : TokenId → World → World → Prop where
  | again {t : TokenId} {w : World} (tripped : w.trip? t = none) : Trips t w w
  | first {t : TokenId} {w w₁ w₂ : World} {reactions : List Reaction} (trips : w.trip? t = some (reactions, w₁))
      (answers : Answers reactions w₁ w₂) : Trips t w w₂

/-- What the links that a token gives out lead to, one after the other. -/
inductive World.Answers : List Reaction → World → World → Prop where
  | nil (w : World) : Answers [] w w
  | cons {r : Reaction} {rs : List Reaction} {c : TokenId} {w w₁ w₂ : World} (link : r.LinksTo c) (first : Trips c w w₁)
      (rest : Answers rs w₁ w₂) : Answers (r :: rs) w w₂
end

/-! ## Reachability -/

section Reachability

open Relation

variable {α : Type} {E E' : α → α → Prop} {S : α → Prop} {a b t : α}

/-- A set that is closed under a relation may be left out of the paths of that relation if one asks for its members as well. -/
theorem reflTransGen_or_iff (hE : ∀ x y, E' x y ↔ E x y ∧ ¬ S x) (hS : ∀ x y, S x → E x y → S y) :
    S b ∨ ReflTransGen E' a b ↔ S b ∨ ReflTransGen E a b := by
  constructor
  · rintro (h | h)
    · exact Or.inl h
    · exact Or.inr (ReflTransGen.mono (fun x y hxy => ((hE x y).mp hxy).1) _ _ h)
  · rintro (h | h)
    · exact Or.inl h
    · induction h with
      | refl => exact Or.inr .refl
      | @tail x y _ hxy ih =>
        by_cases hx : S x
        · exact Or.inl (hS x y hx hxy)
        · exact Or.inr ((ih.resolve_left hx).tail ((hE x y).mpr ⟨hxy, hx⟩))

/-- A path goes back to where it began at most once in its beginning. -/
theorem reflTransGen_iff_first (hE : ∀ x y, E' x y ↔ E x y ∧ x ≠ t) :
    ReflTransGen E t b ↔ b = t ∨ ∃ c, E t c ∧ ReflTransGen E' c b := by
  constructor
  · intro h
    induction h with
    | refl => exact Or.inl rfl
    | @tail x y _ hxy ih =>
      by_cases hx : x = t
      · subst hx
        exact Or.inr ⟨y, hxy, .refl⟩
      · obtain ⟨c, hc, hcx⟩ := ih.resolve_left hx
        exact Or.inr ⟨c, hc, hcx.tail ((hE x y).mpr ⟨hxy, hx⟩)⟩
  · rintro (rfl | ⟨c, hc, hcb⟩)
    · exact .refl
    · exact .head hc (ReflTransGen.mono (fun x y hxy => ((hE x y).mp hxy).1) _ _ hcb)

end Reachability

/-- A token after it has tripped. -/
def Token.latched (x : Token) : Token := { x with interrupted := true, entries := [] }

namespace World

variable {S S' : TokenId → Prop} {w v u : World} {t c d : TokenId}

/-- A token that does not exist holds nothing. -/
theorem holds_of_none (h : w.tokens[t]? = none) : w.holds t = [] := by simp [holds, h]

/-- What a token holds is its entries. -/
theorem holds_of_some {x : Token} (h : w.tokens[t]? = some x) : w.holds t = x.entries := by simp [holds, h]

/-- A token that is modified holds the entries that it has been given. -/
theorem holds_modifyToken {x : Token} (f : Token → Token) (h : w.tokens[t]? = some x) :
    (w.modifyToken t f).holds t = (f x).entries :=
  holds_of_some (by rw [getElem?_modifyToken, if_pos rfl, h]; rfl)

/-- A token holds what it held when another one is modified. -/
theorem holds_modifyToken_of_ne (f : Token → Token) (h : t ≠ d) : (w.modifyToken t f).holds d = w.holds d := by
  unfold holds
  rw [getElem?_modifyToken, if_neg h]

/-- A link stands from one token to another. -/
def LinksTo (w : World) (p c : TokenId) : Prop := ∃ e ∈ w.holds p, e.2.LinksTo c

/-- A token can be reached from another one through links that stand. -/
def Reaches (w : World) : TokenId → TokenId → Prop := Relation.ReflTransGen w.LinksTo

/-- The tokens hold nothing but links, and those that have tripped hold nothing. -/
structure OnlyLinks (w : World) : Prop where
  links : ∀ t, ∀ e ∈ w.holds t, ∃ c < w.tokens.size, e.2.LinksTo c
  tripped : ∀ t, w.isInterrupted t = true → w.holds t = []

/-- Some tokens have tripped and the others are as they were. -/
structure Tripped (S : TokenId → Prop) (w v : World) : Prop where
  size : v.tokens.size = w.tokens.size
  latched : ∀ t, S t → v.tokens[t]? = w.tokens[t]?.map Token.latched
  spared : ∀ t, ¬ S t → v.tokens[t]? = w.tokens[t]?

namespace Tripped

/-- It is of no account how the tokens that have tripped are described. -/
theorem congr (h : Tripped S w v) (hS : ∀ t, S t ↔ S' t) : Tripped S' w v where
  size := h.size
  latched t ht := h.latched t ((hS t).mpr ht)
  spared t ht := h.spared t fun hs => ht ((hS t).mp hs)

theorem trans (h : Tripped S w v) (h' : Tripped S' v u) : Tripped (fun t => S t ∨ S' t) w u where
  size := h'.size.trans h.size
  latched t ht := by
    by_cases hs : S t
    · by_cases hs' : S' t
      · rw [h'.latched t hs', h.latched t hs, Option.map_map]
        rfl
      · rw [h'.spared t hs', h.latched t hs]
    · rw [h'.latched t (ht.resolve_left hs), h.spared t hs]
  spared t ht := by
    rw [h'.spared t fun hs => ht (Or.inr hs), h.spared t fun hs => ht (Or.inl hs)]

/-- A token that has tripped holds nothing any more. -/
theorem holds_latched (h : Tripped S w v) (ht : S t) : v.holds t = [] := by
  unfold holds
  rw [h.latched t ht]
  cases w.tokens[t]? <;> rfl

/-- A token that has not tripped holds what it held. -/
theorem holds_spared (h : Tripped S w v) (ht : ¬ S t) : v.holds t = w.holds t := by
  unfold holds
  rw [h.spared t ht]

/-- The tokens that are interrupted afterwards. -/
theorem isInterrupted_iff (h : Tripped S w v) :
    v.isInterrupted t = true ↔ w.isInterrupted t = true ∨ S t ∧ t < w.tokens.size := by
  unfold isInterrupted
  by_cases hs : S t
  · rw [h.latched t hs]
    cases ht : w.tokens[t]? with
    | none => simpa using fun _ => Array.getElem?_eq_none_iff.mp ht
    | some x => simpa [Token.latched] using Or.inr ⟨hs, (Array.getElem?_eq_some_iff.mp ht).1⟩
  · rw [h.spared t hs]
    simp [hs]

/-- The links that stand after a trip are those of the tokens that have not tripped. -/
theorem linksTo_iff (h : Tripped S w v) : v.LinksTo c d ↔ w.LinksTo c d ∧ ¬ S c := by
  unfold LinksTo
  by_cases hs : S c
  · simp [h.holds_latched hs, hs]
  · simp [h.holds_spared hs, hs]

/-- Tokens that hold nothing but links go on doing so. -/
theorem onlyLinks (h : Tripped S w v) (hw : w.OnlyLinks) : v.OnlyLinks where
  links t e he := by
    by_cases hs : S t
    · rw [h.holds_latched hs] at he
      nomatch he
    · rw [h.holds_spared hs] at he
      rw [h.size]
      exact hw.links t e he
  tripped t ht := by
    by_cases hs : S t
    · exact h.holds_latched hs
    · rw [h.holds_spared hs]
      exact hw.tripped t ((h.isInterrupted_iff.mp ht).resolve_right fun hst => hs hst.1)

/-- Trips leave no more tokens untripped than there were. -/
theorem untripped_le (h : Tripped S w v) : v.untripped ≤ w.untripped :=
  World.untripped_le h.size fun _ ht => h.isInterrupted_iff.mpr (Or.inl ht)

end Tripped

/-- A token that trips gives out what it holds, and the other tokens are as they were. -/
theorem trip?_tripped {reactions : List Reaction} (h : w.trip? t = some (reactions, v)) :
    Tripped (· = t) w v ∧ v.untripped < w.untripped ∧ reactions = (w.holds t).map (·.2) := by
  obtain ⟨x, hx, hfresh, -, hv⟩ := trip?_token h
  obtain ⟨-, hsteady⟩ := trip?_steady h
  have htripped : Tripped (· = t) w v := by
    refine ⟨?_, fun s hs => ?_, fun s hs => ?_⟩
    · rw [hsteady.tokens]
      simp [modifyToken]
    · subst hs
      rw [hv, hx]
      rfl
    · rw [hsteady.tokens, getElem?_modifyToken, if_neg fun h => hs h.symm]
  have hlt : t < w.tokens.size := (Array.getElem?_eq_some_iff.mp hx).1
  have hbefore : w.isInterrupted t = false := by simp [isInterrupted, hx, hfresh]
  have hafter : v.isInterrupted t = true := by simp [isInterrupted, hv]
  refine ⟨htripped, ?_, trip?_given h⟩
  exact World.untripped_lt htripped.size (fun _ hs => htripped.isInterrupted_iff.mpr (Or.inl hs)) hlt hbefore hafter

/-- A token that does not trip again holds nothing and is left as it is. -/
theorem trip?_again (hw : w.OnlyLinks) (h : w.trip? t = none) : Tripped (w.Reaches t) w w := by
  have htoken : ∀ x, w.tokens[t]? = some x → x.interrupted = true ∧ x.entries = [] := by
    intro x hx
    have hi := trip?_eq_none h hx
    have hnone := hw.tripped t (by simp [isInterrupted, hx, hi])
    rw [holds_of_some hx] at hnone
    exact ⟨hi, hnone⟩
  have hnone : w.holds t = [] := by
    cases hx : w.tokens[t]? with
    | none => exact holds_of_none hx
    | some x => rw [holds_of_some hx, (htoken x hx).2]
  have hreach : ∀ s, w.Reaches t s → s = t := by
    intro s hs
    rcases Relation.ReflTransGen.cases_head hs with rfl | ⟨c, ⟨e, he, -⟩, -⟩
    · rfl
    · rw [hnone] at he
      exact absurd he List.not_mem_nil
  refine ⟨rfl, fun s hs => ?_, fun _ _ => rfl⟩
  rw [hreach s hs]
  cases hx : w.tokens[t]? with
  | none => rfl
  | some x =>
    obtain ⟨hi, he⟩ := htoken x hx
    obtain ⟨_, _, _⟩ := x
    subst hi he
    rfl

/-- The links that a token gives out are followed one after the other, and what is reached in the end is what could be reached
from any of them at first: a token that one of them has tripped has taken its links along, and is no way to go any more, but need
not be. -/
theorem answers_reach {n : Nat} {trip : Tripping}
    (ht : ∀ t w, w.OnlyLinks → w.untripped < n → Trips t w (trip t w) ∧ Tripped (w.Reaches t) w (trip t w))
    (rs : List Reaction) (w : World) (hw : w.OnlyLinks) (hn : w.untripped < n) (hrs : ∀ r ∈ rs, ∃ c, r.LinksTo c) :
    Answers rs w (rs.foldl (fun w r => r.run trip w) w) ∧
      Tripped (fun u => ∃ r ∈ rs, ∃ c, r.LinksTo c ∧ w.Reaches c u) w (rs.foldl (fun w r => r.run trip w) w) := by
  induction rs generalizing w with
  | nil => exact ⟨.nil w, rfl, fun _ h => (nomatch h.choose_spec.1), fun _ _ => rfl⟩
  | cons r rs ih =>
    obtain ⟨c, hc⟩ := hrs r List.mem_cons_self
    obtain ⟨htrips, htripped⟩ := ht c w hw hn
    rw [List.foldl_cons, hc.run]
    obtain ⟨hanswers, hrest⟩ := ih (trip c w) (htripped.onlyLinks hw) (Nat.lt_of_le_of_lt htripped.untripped_le hn)
      fun r' hr' => hrs r' (List.mem_cons_of_mem _ hr')
    refine ⟨.cons hc htrips hanswers, (htripped.trans hrest).congr fun u => ?_⟩
    have hsame : ∀ d, w.Reaches c u ∨ (trip c w).Reaches d u ↔ w.Reaches c u ∨ w.Reaches d u := fun d =>
      reflTransGen_or_iff (S := w.Reaches c) (fun _ _ => htripped.linksTo_iff) fun _ _ hx hxy => hx.tail hxy
    constructor
    · rintro (hu | ⟨r', hr', d, hd, hu⟩)
      · exact ⟨r, List.mem_cons_self, c, hc, hu⟩
      · rcases (hsame d).mp (Or.inr hu) with hu | hu
        · exact ⟨r, List.mem_cons_self, c, hc, hu⟩
        · exact ⟨r', List.mem_cons_of_mem _ hr', d, hd, hu⟩
    · rintro ⟨r', hr', d, hd, hu⟩
      rcases List.mem_cons.mp hr' with rfl | hr'
      · rw [hc.unique hd]
        exact Or.inl hu
      · rcases (hsame d).mpr (Or.inr hu) with hu | hu
        · exact Or.inl hu
        · exact Or.inr ⟨r', hr', d, hd, hu⟩

/-- A trip among links ends, and trips what can be reached through links that stand: the number of tokens that have not been
tripped gets smaller with every token that trips. -/
theorem trip_reaches (n : Nat) (t : TokenId) (w : World) (hw : w.OnlyLinks) (hn : w.untripped < n) :
    Trips t w (trip n t w) ∧ Tripped (w.Reaches t) w (trip n t w) := by
  induction n generalizing t w with
  | zero => exact absurd hn (Nat.not_lt_zero _)
  | succ n ih =>
    unfold trip
    split
    · rename_i h
      exact ⟨.again h, trip?_again hw h⟩
    · rename_i reactions w₁ h
      obtain ⟨hfirst, hlt, hreactions⟩ := trip?_tripped h
      have hlinks : ∀ r ∈ reactions, ∃ c, r.LinksTo c := by
        intro r hr
        rw [hreactions] at hr
        obtain ⟨e, he, rfl⟩ := List.mem_map.mp hr
        obtain ⟨c, -, hc⟩ := hw.links t e he
        exact ⟨c, hc⟩
      have hn₁ : w₁.untripped < n := by omega
      obtain ⟨hanswers, hrest⟩ := answers_reach ih reactions w₁ (hfirst.onlyLinks hw) hn₁ hlinks
      refine ⟨.first h hanswers, (hfirst.trans hrest).congr fun u => ?_⟩
      refine Iff.trans ?_ (reflTransGen_iff_first fun _ _ => hfirst.linksTo_iff).symm
      refine or_congr_right ⟨?_, ?_⟩
      · rintro ⟨r, hr, c, hc, hu⟩
        rw [hreactions] at hr
        obtain ⟨e, he, rfl⟩ := List.mem_map.mp hr
        exact ⟨c, ⟨e, he, hc⟩, hu⟩
      · rintro ⟨c, ⟨e, he, hc⟩, hu⟩
        refine ⟨e.2, ?_, c, hc, hu⟩
        rw [hreactions]
        exact List.mem_map.mpr ⟨e, he, rfl⟩

/-- Interrupting a token comes to its end, and trips what can be reached from it through links that stand, and nothing else. -/
theorem interrupt_tripped (hw : w.OnlyLinks) (t : TokenId) :
    Trips t w (w.interrupt t) ∧ Tripped (w.Reaches t) w (w.interrupt t) :=
  trip_reaches _ t w hw (Nat.lt_succ_of_le w.untripped_le_size)

end World

/-! ## Links that have been made and not dropped -/

/-- A link that has been made: its ends, whether it is the runtime's, and its subscription, which there is none of if the parent
had been tripped already. -/
structure Link where
  parent : TokenId
  child : TokenId
  byRuntime : Bool
  subscription? : Option Subscription

/-- The reaction by which a link is registered. -/
def Link.reaction (l : Link) : Reaction := if l.byRuntime then .forward l.child else .call (.interrupting l.child)

/-- The reaction by which a link is registered is a link, whoever makes it. -/
theorem Link.reaction_linksTo (l : Link) : l.reaction.LinksTo l.child := by
  unfold reaction
  split
  · exact .runtime
  · exact .code

/-- A link leads from its parent to its child. -/
def Link.Leads (links : List Link) (p c : TokenId) : Prop := ∃ l ∈ links, l.parent = p ∧ l.child = c

namespace World

/-- The worlds that arise when tokens are made, linked and tripped and links are dropped, in any order, with the links that have
been made and not dropped. What happens besides leaves the tokens alone. -/
inductive Linked : List Link → World → Prop where
  | start {w : World} (unlinked : ∀ t, w.holds t = []) : Linked [] w
  | elsewhere {links : List Link} {w v : World} (h : Linked links w) (tokens : v.tokens = w.tokens) : Linked links v
  | newToken {links : List Link} {w : World} (h : Linked links w) : Linked links w.newToken.2
  /-- Code links two tokens. -/
  | link {links : List Link} {w : World} {p c : TokenId} (h : Linked links w) (parent : p < w.tokens.size)
      (child : c < w.tokens.size) :
      Linked ({ parent := p, child := c, byRuntime := false, subscription? := (Command.run interrupt w (.link p c)).1 } :: links)
        (Command.run interrupt w (.link p c)).2
  /-- The runtime links two tokens. -/
  | forward {links : List Link} {w : World} {p c : TokenId} (h : Linked links w) (parent : p < w.tokens.size)
      (child : c < w.tokens.size) :
      Linked ({ parent := p, child := c, byRuntime := true, subscription? := (w.react p (.forward c)).1 } :: links)
        (w.react p (.forward c)).2
  /-- Code drops a subscription. -/
  | withdraw {links : List Link} {w : World} (h : Linked links w) (s : Subscription) :
      Linked (links.filter fun l => l.subscription? != some s || l.byRuntime) (w.withdraw s)
  /-- The runtime drops a subscription. -/
  | unsubscribe {links : List Link} {w : World} (h : Linked links w) (s : Subscription) :
      Linked (links.filter fun l => l.subscription? != some s) (w.unsubscribe s)
  | interrupt {links : List Link} {w : World} {t : TokenId} (h : Linked links w) (token : t < w.tokens.size) :
      Linked links (w.interrupt t)

/-- What holds of links that have been made and not dropped: those whose parent has not been tripped stand on it, and they are all
that does; where a parent has been tripped, so has the child. -/
structure LinkLaw (links : List Link) (w : World) : Prop where
  ends : ∀ l ∈ links, l.parent < w.tokens.size ∧ l.child < w.tokens.size
  tripped : ∀ t, w.isInterrupted t = true → w.holds t = []
  standing : ∀ t, w.isInterrupted t = false → ∀ e, e ∈ w.holds t ↔
    ∃ l ∈ links, l.subscription? = some { token := t, key := e.1 } ∧ l.reaction = e.2
  subscribed : ∀ l ∈ links, ∀ s, l.subscription? = some s → s.token = l.parent
  late : ∀ l ∈ links, l.subscription? = none → w.isInterrupted l.parent = true
  closed : ∀ l ∈ links, w.isInterrupted l.parent = true → w.isInterrupted l.child = true

namespace LinkLaw

variable {links links' : List Link} {w v : World} {t p c : TokenId}

/-- Where the law of links holds, the tokens hold nothing but links. -/
theorem onlyLinks (h : LinkLaw links w) : w.OnlyLinks where
  links t e he := by
    cases ht : w.isInterrupted t with
    | true =>
      rw [h.tripped t ht] at he
      nomatch he
    | false =>
      obtain ⟨l, hl, -, hr⟩ := (h.standing t ht e).mp he
      rw [← hr]
      exact ⟨l.child, (h.ends l hl).2, l.reaction_linksTo⟩
  tripped := h.tripped

/-- A link stands if and only if its parent has not been tripped. -/
theorem linksTo_iff (h : LinkLaw links w) : w.LinksTo p c ↔ Link.Leads links p c ∧ ¬ w.isInterrupted p = true := by
  constructor
  · rintro ⟨e, he, hc⟩
    have hp : ¬ w.isInterrupted p = true := fun hp => by
      rw [h.tripped p hp] at he
      nomatch he
    obtain ⟨l, hl, hs, hr⟩ := (h.standing p (Bool.eq_false_iff.mpr hp) e).mp he
    rw [← hr] at hc
    exact ⟨⟨l, hl, (h.subscribed l hl _ hs).symm, l.reaction_linksTo.unique hc⟩, hp⟩
  · rintro ⟨⟨l, hl, rfl, rfl⟩, hp⟩
    cases hs : l.subscription? with
    | none => exact absurd (h.late l hl hs) hp
    | some s =>
      have hparent := h.subscribed l hl s hs
      obtain ⟨token, key⟩ := s
      obtain rfl : token = l.parent := hparent
      have hstands := (h.standing l.parent (Bool.eq_false_iff.mpr hp) (key, l.reaction)).mpr ⟨l, hl, hs, rfl⟩
      exact ⟨(key, l.reaction), hstands, l.reaction_linksTo⟩

/-- Up to the tokens that have been tripped anyway, what can be reached through links that stand is what can be reached through
links that have not been dropped. -/
theorem reaches_iff (h : LinkLaw links w) (t : TokenId) {u : TokenId} :
    w.isInterrupted u = true ∨ w.Reaches t u ↔ w.isInterrupted u = true ∨ Relation.ReflTransGen (Link.Leads links) t u :=
  reflTransGen_or_iff (S := fun u => w.isInterrupted u = true) (fun _ _ => h.linksTo_iff) fun x y hx hxy => by
    obtain ⟨l, hl, rfl, rfl⟩ := hxy
    exact h.closed l hl hx

/-- What can be reached from a token that exists is a token that exists. -/
theorem reaches_lt (h : LinkLaw links w) {u : TokenId} (ht : t < w.tokens.size) (hu : w.Reaches t u) : u < w.tokens.size := by
  induction hu with
  | refl => exact ht
  | tail _ hxy _ =>
    obtain ⟨⟨l, hl, rfl, rfl⟩, -⟩ := h.linksTo_iff.mp hxy
    exact (h.ends l hl).2

/-- What stands on a token that has not been tripped are links. -/
theorem entries_iff (h : LinkLaw links w) {x : Token} (hx : w.tokens[t]? = some x) (hi : x.interrupted = false)
    (e : Nat × Reaction) :
    e ∈ x.entries ↔ ∃ l ∈ links, l.subscription? = some { token := t, key := e.1 } ∧ l.reaction = e.2 := by
  rw [← holds_of_some hx]
  exact h.standing t (by simp [isInterrupted, hx, hi]) e

/-- A trip reaches what the links lead to that have been made and not dropped, whether or not they had been made in time. -/
theorem interrupted_iff (h : LinkLaw links w) (ht : t < w.tokens.size) (u : TokenId) :
    (w.interrupt t).isInterrupted u = true ↔ w.isInterrupted u = true ∨ Relation.ReflTransGen (Link.Leads links) t u := by
  rw [(interrupt_tripped h.onlyLinks t).2.isInterrupted_iff, ← h.reaches_iff]
  exact or_congr_right ⟨fun hu => hu.1, fun hu => ⟨hu, h.reaches_lt ht hu⟩⟩

/-! ### The law is kept -/

/-- Where nothing is held, there are no links. -/
theorem start (hw : ∀ t, w.holds t = []) : LinkLaw [] w where
  ends := nofun
  tripped t _ := hw t
  standing t _ e := by simp [hw t]
  subscribed := nofun
  late := nofun
  closed := nofun

/-- Nothing has happened to the tokens, except that there may be more of them. -/
theorem untouched (h : LinkLaw links w) (hsize : w.tokens.size ≤ v.tokens.size) (hholds : ∀ t, v.holds t = w.holds t)
    (hinterrupted : ∀ t, v.isInterrupted t = w.isInterrupted t) : LinkLaw links v where
  ends l hl := by
    obtain ⟨hp, hc⟩ := h.ends l hl
    exact ⟨Nat.lt_of_lt_of_le hp hsize, Nat.lt_of_lt_of_le hc hsize⟩
  tripped := by simpa only [hholds, hinterrupted] using h.tripped
  standing := by simpa only [hholds, hinterrupted] using h.standing
  subscribed := h.subscribed
  late := by simpa only [hinterrupted] using h.late
  closed := by simpa only [hinterrupted] using h.closed

/-- The law of links speaks of tokens only. -/
theorem elsewhere (h : LinkLaw links w) (hv : v.tokens = w.tokens) : LinkLaw links v := by
  refine h.untouched ?_ (fun t => ?_) fun t => ?_
  · rw [hv]
  · simp only [holds, hv]
  · simp only [isInterrupted, hv]

/-- A new token is linked to nothing. -/
theorem newToken (h : LinkLaw links w) : LinkLaw links w.newToken.2 := by
  have hnone : w.tokens[w.tokens.size]? = none := Array.getElem?_eq_none_iff.mpr (Nat.le_refl _)
  refine h.untouched (newToken_later w).tokens (fun t => ?_) fun t => ?_
  · simp only [holds, World.newToken, Array.getElem?_push]
    split
    · rename_i ht
      rw [ht, hnone]
      rfl
    · rfl
  · exact isInterrupted_newToken w t

/-- A trip preserves the law of links: where it trips a parent, it trips the child. -/
theorem interrupt (h : LinkLaw links w) (ht : t < w.tokens.size) : LinkLaw links (w.interrupt t) := by
  have htripped := (interrupt_tripped h.onlyLinks t).2
  refine ⟨fun l hl => ?_, (htripped.onlyLinks h.onlyLinks).tripped, fun p hp e => ?_, h.subscribed, fun l hl hs => ?_,
    fun l hl hp => ?_⟩
  · rw [htripped.size]
    exact h.ends l hl
  · have hspared : ¬ w.Reaches t p := fun hr =>
      absurd (htripped.isInterrupted_iff.mpr (Or.inr ⟨hr, h.reaches_lt ht hr⟩)) (by rw [hp]; nofun)
    rw [htripped.holds_spared hspared]
    exact h.standing p ((interrupt_later t w).untripped hp) e
  · exact (interrupt_later t w).latched _ (h.late l hl hs)
  · rw [h.interrupted_iff ht] at hp ⊢
    rcases hp with hp | hp
    · exact Or.inl (h.closed l hl hp)
    · exact Or.inr (hp.tail ⟨l, hl, rfl, rfl⟩)

/-- What a token holds changes together with the links that stand on it. -/
theorem changed {f : Token → Token} (h : LinkLaw links w) (hf : ∀ x, (f x).interrupted = x.interrupted)
    (hempty : ∀ x, w.tokens[t]? = some x → x.interrupted = true → x.entries = [] → (f x).entries = [])
    (hlinks : ∀ l ∈ links', l ∈ links ∨ w.isInterrupted t = false ∧ l.parent = t ∧ t < w.tokens.size ∧
      l.child < w.tokens.size ∧ ∃ key, l.subscription? = some { token := t, key })
    (hstanding : ∀ x, w.tokens[t]? = some x → x.interrupted = false → ∀ e, e ∈ (f x).entries ↔
      ∃ l ∈ links', l.subscription? = some { token := t, key := e.1 } ∧ l.reaction = e.2)
    (hothers : ∀ l s, l.subscription? = some s → s.token ≠ t → (l ∈ links' ↔ l ∈ links)) :
    LinkLaw links' (w.modifyToken t f) := by
  have hsize : (w.modifyToken t f).tokens.size = w.tokens.size := by simp [modifyToken]
  have hflag := fun u => isInterrupted_modifyToken_of_eq w t u hf
  refine ⟨fun l hl => ?_, fun u hu => ?_, fun u hu e => ?_, fun l hl s hs => ?_, fun l hl hs => ?_, fun l hl hu => ?_⟩
  · rw [hsize]
    rcases hlinks l hl with hl | ⟨-, hp, ht, hc, -⟩
    · exact h.ends l hl
    · exact ⟨hp ▸ ht, hc⟩
  · rw [hflag] at hu
    by_cases htu : t = u
    · subst htu
      obtain ⟨x, hx, hi⟩ := exists_of_isInterrupted hu
      have hnone := h.tripped t hu
      rw [holds_of_some hx] at hnone
      rw [holds_modifyToken f hx]
      exact hempty x hx hi hnone
    · rw [holds_modifyToken_of_ne f htu]
      exact h.tripped u hu
  · rw [hflag] at hu
    by_cases htu : t = u
    · subst htu
      cases hx : w.tokens[t]? with
      | none =>
        have hnone : (w.modifyToken t f).tokens[t]? = none := by rw [getElem?_modifyToken, if_pos rfl, hx]; rfl
        rw [holds_of_none hnone]
        refine ⟨fun he => absurd he List.not_mem_nil, ?_⟩
        rintro ⟨l, hl, hs, -⟩
        have hlt : t < w.tokens.size := by
          rcases hlinks l hl with hl | ⟨-, -, ht, -⟩
          · rw [show t = l.parent from h.subscribed l hl _ hs]
            exact (h.ends l hl).1
          · exact ht
        exact absurd (Array.getElem?_eq_none_iff.mp hx) (Nat.not_le_of_lt hlt)
      | some x =>
        rw [holds_modifyToken f hx]
        exact hstanding x hx (by simpa [isInterrupted, hx] using hu) e
    · rw [holds_modifyToken_of_ne f htu, h.standing u hu e]
      refine exists_congr fun l => and_congr_left fun hl => ?_
      exact (hothers l _ hl.1 fun hut => htu hut.symm).symm
  · rcases hlinks l hl with hl | ⟨-, hp, -, -, key, hkey⟩
    · exact h.subscribed l hl s hs
    · rw [hkey] at hs
      rw [← Option.some.inj hs, hp]
  · rw [hflag]
    rcases hlinks l hl with hl | ⟨-, -, -, -, key, hkey⟩
    · exact h.late l hl hs
    · rw [hkey] at hs
      exact absurd hs (Option.some_ne_none _)
  · rw [hflag] at hu ⊢
    rcases hlinks l hl with hl | ⟨ho, hp, -⟩
    · exact h.closed l hl hu
    · rw [hp, ho] at hu
      exact absurd hu Bool.false_ne_true

/-- Dropping a link by the runtime takes that link away, and no other. -/
theorem unsubscribe (h : LinkLaw links w) (s : Subscription) :
    LinkLaw (links.filter fun l => l.subscription? != some s) (w.unsubscribe s) := by
  refine h.changed (fun _ => rfl) (fun x _ _ hx => by simp [hx]) (fun l hl => Or.inl (List.mem_filter.mp hl).1)
    (fun x hx hi e => ?_) fun l u hu hne => ?_
  · rw [List.mem_filter, h.entries_iff hx hi]
    constructor
    · rintro ⟨⟨l, hl, hs, hr⟩, hk⟩
      exact ⟨l, List.mem_filter.mpr ⟨hl, by obtain ⟨_, _⟩ := s; simpa [hs] using hk⟩, hs, hr⟩
    · rintro ⟨l, hl, hs, hr⟩
      obtain ⟨hl, hk⟩ := List.mem_filter.mp hl
      exact ⟨⟨l, hl, hs, hr⟩, by obtain ⟨_, _⟩ := s; simpa [hs] using hk⟩
  · have hkept : (l.subscription? != some s) = true := by
      rw [hu, bne_iff_ne]
      exact fun heq => hne (congrArg Subscription.token (Option.some.inj heq))
    simp [hkept]

/-- Dropping a link by code takes that link away, unless it is the runtime's. -/
theorem withdraw (h : LinkLaw links w) (s : Subscription) :
    LinkLaw (links.filter fun l => l.subscription? != some s || l.byRuntime) (w.withdraw s) := by
  have hlistener : ∀ l : Link, ∀ r, l.reaction = r → l.byRuntime = !r.isListener := by
    rintro l r rfl
    unfold Link.reaction
    cases l.byRuntime <;> rfl
  refine h.changed (fun _ => rfl) (fun x _ _ hx => by simp [hx]) (fun l hl => Or.inl (List.mem_filter.mp hl).1)
    (fun x hx hi e => ?_) fun l u hu hne => ?_
  · rw [List.mem_filter, h.entries_iff hx hi]
    constructor
    · rintro ⟨⟨l, hl, hs, hr⟩, hk⟩
      refine ⟨l, List.mem_filter.mpr ⟨hl, ?_⟩, hs, hr⟩
      obtain ⟨_, _⟩ := s
      simpa [hs, hlistener l _ hr] using hk
    · rintro ⟨l, hl, hs, hr⟩
      obtain ⟨hl, hk⟩ := List.mem_filter.mp hl
      refine ⟨⟨l, hl, hs, hr⟩, ?_⟩
      obtain ⟨_, _⟩ := s
      simpa [hs, hlistener l _ hr] using hk
  · have hkept : (l.subscription? != some s || l.byRuntime) = true := by
      have hne' : some u ≠ some s := fun heq => hne (congrArg Subscription.token (Option.some.inj heq))
      simp [hu, hne']
    simp [hkept]

/-- A link whose parent has not been tripped stands from now on; one that comes too late trips its child at once. -/
theorem react (h : LinkLaw links w) (hp : p < w.tokens.size) (hc : c < w.tokens.size) (byRuntime : Bool) {r : Reaction}
    (hr : ∀ s, Link.reaction { parent := p, child := c, byRuntime, subscription? := s } = r) :
    LinkLaw ({ parent := p, child := c, byRuntime, subscription? := (w.react p r).1 } :: links) (w.react p r).2 := by
  have hlink : r.LinksTo c := by
    rw [← hr none]
    exact Link.reaction_linksTo { parent := p, child := c, byRuntime, subscription? := none }
  have hx := Array.getElem?_eq_getElem hp
  cases ho : w.isInterrupted p with
  | true =>
    have hi : w.tokens[p].interrupted = true := by simpa [isInterrupted, hx] using ho
    have hreact : w.react p r = (none, w.interrupt c) := by
      simp [World.react, World.subscribe, hx, hi, hlink.run]
    rw [hreact]
    have hlaw := h.interrupt hc
    have hsize := (interrupt_tripped h.onlyLinks c).2.size
    refine ⟨List.forall_mem_cons.mpr ⟨?_, hlaw.ends⟩, hlaw.tripped, fun q hq e => ?_,
      List.forall_mem_cons.mpr ⟨fun _ hs => absurd hs.symm (Option.some_ne_none _), hlaw.subscribed⟩,
      List.forall_mem_cons.mpr ⟨fun _ => (interrupt_later c w).latched p ho, hlaw.late⟩,
      List.forall_mem_cons.mpr ⟨fun _ => isInterrupted_interrupt hc, hlaw.closed⟩⟩
    · rw [hsize]
      exact ⟨hp, hc⟩
    · rw [hlaw.standing q hq e]
      simp
  | false =>
    have hi : w.tokens[p].interrupted = false := by simpa [isInterrupted, hx] using ho
    have hreact : w.react p r = (some { token := p, key := w.tokens[p].nextKey }, w.modifyToken p fun x =>
        { x with nextKey := x.nextKey + 1, entries := x.entries ++ [(x.nextKey, r)] }) := by
      simp [World.react, World.subscribe, hx, hi]
    rw [hreact]
    refine h.changed (fun _ => rfl) (fun x hx' hi' => ?_) (List.forall_mem_cons.mpr ⟨?_, fun l hl => Or.inl hl⟩)
      (fun x hx' hi' e => ?_) fun l s hs hne => ?_
    · obtain rfl := Option.some.inj (hx.symm.trans hx')
      exact absurd (hi.symm.trans hi') Bool.false_ne_true
    · exact Or.inr ⟨ho, rfl, hp, hc, _, rfl⟩
    · obtain rfl := Option.some.inj (hx.symm.trans hx')
      rw [List.mem_append, h.entries_iff hx hi, List.mem_singleton]
      constructor
      · rintro (⟨l, hl, hs⟩ | rfl)
        · exact ⟨l, List.mem_cons_of_mem _ hl, hs⟩
        · exact ⟨_, List.mem_cons_self, rfl, hr _⟩
      · rintro ⟨l, hl, hs, hreaction⟩
        rcases List.mem_cons.mp hl with rfl | hl
        · exact Or.inr (Prod.ext (Subscription.mk.inj (Option.some.inj hs)).2.symm (hreaction.symm.trans (hr _)))
        · exact Or.inl ⟨l, hl, hs, hreaction⟩
    · refine ⟨fun hl => (List.mem_cons.mp hl).resolve_left ?_, List.mem_cons_of_mem _⟩
      rintro rfl
      exact hne (congrArg Subscription.token (Option.some.inj hs)).symm

/-- A link that code makes is registered as any other one. -/
theorem link_eq (w : World) (p c : TokenId) :
    Command.run World.interrupt w (.link p c) = w.react p (.call (.interrupting c)) := by
  simp only [Command.run, World.react]
  split <;> rfl

end LinkLaw

/-- The law of links holds in every world that arises. The induction is on how the world has come about. -/
theorem Linked.law {links : List Link} {w : World} (h : Linked links w) : LinkLaw links w := by
  induction h with
  | start unlinked => exact .start unlinked
  | elsewhere _ tokens ih => exact ih.elsewhere tokens
  | newToken _ ih => exact ih.newToken
  | @link _ w p c _ parent child ih =>
    rw [LinkLaw.link_eq]
    exact ih.react parent child false fun _ => rfl
  | forward _ parent child ih => exact ih.react parent child true fun _ => rfl
  | withdraw _ s ih => exact ih.withdraw s
  | unsubscribe _ s ih => exact ih.unsubscribe s
  | interrupt _ token ih => exact ih.interrupt token

/-- Among tokens that have been linked in any way, a trip ends; the tokens that are interrupted afterwards are those that were
before and those that can be reached from the one that is tripped through links that have not been dropped, from parents to
children; and at any time the child of an interrupted parent is interrupted, whether the link had been made before or came too
late. -/
theorem interrupt_reaches {links : List Link} {w : World} {t : TokenId} (h : Linked links w) (ht : t < w.tokens.size) :
    Trips t w (w.interrupt t) ∧
      (∀ u, (w.interrupt t).isInterrupted u = true ↔
        w.isInterrupted u = true ∨ Relation.ReflTransGen (Link.Leads links) t u) ∧
      ∀ l ∈ links, w.isInterrupted l.parent = true → w.isInterrupted l.child = true :=
  ⟨(interrupt_tripped h.law.onlyLinks t).1, h.law.interrupted_iff ht, h.law.closed⟩

/-- Three tokens that are linked in a circle, and one that the first of them is linked to by the runtime until that link is
dropped. -/
def circle : World :=
  let w := (newToken (newToken (newToken (newToken default).2).2).2).2
  let w := (Command.run interrupt w (.link 0 1)).2
  let w := (Command.run interrupt w (.link 1 2)).2
  let w := (Command.run interrupt w (.link 2 0)).2
  let w := (w.react 0 (.forward 3)).2
  w.unsubscribe { token := 0, key := 1 }

/-- A trip of any token of the circle trips the three of them, and it ends. -/
theorem interrupt_reaches_circle :
    Trips 1 circle (circle.interrupt 1) ∧ (circle.interrupt 1).isInterrupted 0 = true ∧
      (circle.interrupt 1).isInterrupted 3 = false := by
  have h : Linked _ circle :=
    .unsubscribe (.forward (.link (.link (.link (.newToken (.newToken (.newToken (.newToken (.start fun _ => rfl))))) (by decide)
      (by decide)) (by decide) (by decide)) (by decide) (by decide)) (by decide) (by decide)) { token := 0, key := 1 }
  obtain ⟨htrips, hreached, -⟩ := interrupt_reaches (t := 1) h (by decide)
  refine ⟨htrips, (hreached 0).mpr (Or.inr ?_), rfl⟩
  refine .head (b := 2) ?_ (.single ?_)
  · exact ⟨{ parent := 1, child := 2, byRuntime := false, subscription? := some { token := 1, key := 0 } },
      List.mem_of_getElem? (i := 1) rfl, rfl, rfl⟩
  · exact ⟨{ parent := 2, child := 0, byRuntime := false, subscription? := some { token := 2, key := 0 } },
      List.mem_of_getElem? (i := 0) rfl, rfl, rfl⟩

end World

end Interruptible

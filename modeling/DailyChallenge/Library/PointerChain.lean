import Mathlib

/-!
# Null-terminated pointer chains

A memory of linked nodes is seen through its links: an address of a live node is mapped to the
node's next pointer, any other address to nothing. A null pointer is `none`. `Chain link start
nodes` says that following links from `start` visits exactly `nodes` and ends in null, so a chain is
finite by definition, acyclic when `nodes` has no duplicates, and determined by its start
(`Chain.unique`). A change of links off a chain keeps it (`Chain.congr`).
-/

set_option autoImplicit false
set_option relaxedAutoImplicit false

namespace DailyChallenge.Library

variable {Addr : Type*}

/-- Following links from `start` visits exactly the listed nodes and then reaches null. -/
def Chain (link : Addr → Option (Option Addr)) (start : Option Addr) : List Addr → Prop
  | [] => start = none
  | node :: rest => start = some node ∧ ∃ next, link node = some next ∧ Chain link next rest

namespace Chain

variable {link other : Addr → Option (Option Addr)} {start : Option Addr}

/-- Links that agree on the nodes of a chain have the same chain. -/
theorem congr : ∀ {start : Option Addr} {nodes : List Addr}, Chain link start nodes →
    (∀ node ∈ nodes, other node = link node) → Chain other start nodes
  | _, [], h, _ => h
  | _, node :: _, ⟨hstart, next, hnext, hrest⟩, hagree =>
    ⟨hstart, next, (hagree node List.mem_cons_self).trans hnext,
      hrest.congr fun later hlater ↦ hagree later (List.mem_cons_of_mem _ hlater)⟩

/-- A chain is determined by its start. -/
theorem unique : ∀ {start : Option Addr} {first second : List Addr}, Chain link start first →
    Chain link start second → first = second
  | _, [], [], _, _ => rfl
  | _, [], _ :: _, h, ⟨hstart, _⟩ => by
    rw [show _ = none from h] at hstart
    cases hstart
  | _, _ :: _, [], ⟨hstart, _⟩, h => by
    rw [show _ = none from h] at hstart
    cases hstart
  | _, _ :: _, _ :: _, ⟨hstart, _, hnext, hrest⟩, ⟨hstart', _, hnext', hrest'⟩ => by
    obtain rfl := Option.some.inj (hstart.symm.trans hstart')
    obtain rfl := Option.some.inj (hnext.symm.trans hnext')
    rw [hrest.unique hrest']

/-- Every node of a chain is live. -/
theorem live : ∀ {start : Option Addr} {nodes : List Addr}, Chain link start nodes →
    ∀ node ∈ nodes, link node ≠ none
  | _, [], _, _, hnode => by simp at hnode
  | _, _ :: _, ⟨_, next, hnext, hrest⟩, node, hnode => by
    rcases List.mem_cons.mp hnode with rfl | hlater
    · rw [hnext]
      exact Option.some_ne_none next
    · exact hrest.live node hlater

/-- A chain from a live start begins with it. -/
theorem exists_cons {node : Addr} {nodes : List Addr} (h : Chain link (some node) nodes) :
    ∃ next rest, nodes = node :: rest ∧ link node = some next ∧ Chain link next rest := by
  cases nodes with
  | nil => cases h
  | cons head rest =>
    obtain ⟨hstart, next, hnext, hrest⟩ := h
    obtain rfl := Option.some.inj hstart
    exact ⟨next, rest, rfl, hnext, hrest⟩

/-- A chain from null is empty. -/
theorem eq_nil {nodes : List Addr} (h : Chain link none nodes) : nodes = [] := by
  cases nodes with
  | nil => rfl
  | cons head rest => cases h.1

end Chain

end DailyChallenge.Library

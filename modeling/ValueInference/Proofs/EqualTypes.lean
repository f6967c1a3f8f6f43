/-
Equal values have equal types.

The type of a value is read off in the order in which members, options and candidates are stored,
and it is given up at the first error or disagreement.  What is stored in another order gives the
same type, though: equality pairs members and candidates off, the type of a union depends only on
which types its members have, and candidates that all have one type have it in any order.  The
comparison looks for partners from the left only, so it is asked that no set on the left lists a
candidate twice.

* **`Store.typeOf_congr`** — equal complete values without cycles have one type, or none.
-/
import ValueInference.Proofs.Broadening

namespace ValueInference

namespace Store

variable {s : Store} {a b : NodeId}

/-- **Equal values have one type, or none**, in whatever order they list members, options and
candidates: if the left one is complete and without cycles, and lists neither equal members nor
equal candidates. -/
theorem typeOf_congr (hs : s.Attained) (ha : s.Finished a)
    (hacyclic : ∀ n, s.Leads a n → ¬ s.Below n n) (hmembers : s.DistinctMembers a)
    (hcandidates : s.DistinctCandidates a) (hb : b < s.nodes.size) (h : s.equal a b = true)
    (T : Ty) : s.typeOf a = .ok T ↔ s.typeOf b = .ok T := by
  have hfounded : s.Founded a := ha.founded hacyclic
  have hdiscernible : s.Discernible a := .of_founded hfounded hmembers hcandidates
  rw [typeOf_iff_followed, typeOf_iff_followed]
  exact sameTypes_of_equalIn hs.whole hfounded hdiscernible ⟨ha.present, hb, h⟩ T

/-- Two functions over a placeholder that becomes a number.  Both are given as what takes a number,
and as what does so once its first argument is bound; they list these in different orders, and so
they do with the options that they return and the members of the union in these. -/
def crosswise : Store :=
  let s := (Change.build (.tuple [0])).apply (Change.placeholder.apply {})
  let s := (Change.build (.union [1, 2])).apply ((Change.build (.list 0)).apply s)
  let s := (Change.build (.tagged [(0, 3), (1, 0)])).apply ((Change.build (.union [2, 1])).apply s)
  let s := Change.token.apply ((Change.build (.tagged [(1, 0), (0, 4)])).apply s)
  let s := (Change.build (.function (.possibilities ⟨0,
    [.function (.virtual [0] 5), .function (.partialApp (.virtual [3, 0] 5) [3])]⟩))).apply s
  let s := (Change.build (.function (.possibilities ⟨1,
    [.function (.partialApp (.virtual [4, 0] 6) [4]), .function (.virtual [0] 6)]⟩))).apply
      (Change.token.apply s)
  (Change.complete 0 (.scalar .anything .i64)).apply s

/-- A function with a new set of options may be built. -/
theorem Reachable.build_function (hs : s.Reachable) (token : Nat) (cs : List Candidate)
    (hcs : cs.Nodup) (htoken : token = s.tokens) :
    ((Change.build (.function (.possibilities ⟨token, cs⟩))).apply
      (Change.token.apply s)).Reachable := by
  subst htoken
  refine .step _ (.step .token hs trivial) fun slot hslot p hp => ?_
  cases hslot.trans (congrArg some hp)
  exact hs.sound.admits_new hcs

theorem reachable_crosswise : crosswise.Reachable := by
  have hunion := Reachable.step (.build (.union [1, 2])) (.step (.build (.list 0))
    (.step (.build (.tuple [0])) (.step .placeholder .start trivial) nofun) nofun) nofun
  have htagged := Reachable.step (.build (.tagged [(1, 0), (0, 4)]))
    (.step (.build (.tagged [(0, 3), (1, 0)])) (.step (.build (.union [2, 1])) hunion nofun) nofun)
    nofun
  have hfirst := htagged.build_function 0
    [.function (.virtual [0] 5), .function (.partialApp (.virtual [3, 0] 5) [3])]
    (by decide) (by decide +kernel)
  have hsecond := hfirst.build_function 1
    [.function (.partialApp (.virtual [4, 0] 6) [4]), .function (.virtual [0] 6)]
    (by decide) (by decide +kernel)
  exact .step (.complete 0 (.scalar .anything .i64)) hsecond
    fun slot hslot p hp => nomatch hslot.trans (congrArg some hp)

theorem typeOf_congr_crosswise :
    crosswise.equal 7 8 = true ∧
      crosswise.typeOf 7 = .ok (.function [.i64] (.union [.i64, .tuple [.i64], .list .i64])) ∧
      crosswise.typeOf 8 = .ok (.function [.i64] (.union [.i64, .tuple [.i64], .list .i64])) := by
  obtain ⟨hbroadenable, hdistinct⟩ :=
    Broadenable.of_everywhere (s := crosswise) (a := 7) 5 (by decide +kernel)
  have hequal : crosswise.equal 7 8 = true := by decide +kernel
  have htype : crosswise.typeOf 7 =
      .ok (.function [.i64] (.union [.i64, .tuple [.i64], .list .i64])) :=
    ok_of_toOption (by decide +kernel)
  exact ⟨hequal, htype, (typeOf_congr reachable_crosswise.attained hbroadenable.finished
    hbroadenable.acyclic hbroadenable.distinctMembers hdistinct (by decide +kernel) hequal
    _).mp htype⟩

/-- A set of which two candidates have become equal equals one that has another type, and one that
has none. -/
example :
    let s := (Change.build (.scalar .anything .i64)).apply (Change.placeholder.apply {})
    let s := Change.token.apply ((Change.build (.scalar .anything .string)).apply s)
    let s := (Change.build (.function (.possibilities
      ⟨0, [.function (.virtual [] 0), .function (.virtual [] 1)]⟩))).apply s
    let s := (Change.build (.function (.possibilities
      ⟨1, [.function (.virtual [] 0), .function (.virtual [] 2)]⟩))).apply (Change.token.apply s)
    let s := (Change.complete 0 (.scalar .anything .i64)).apply s
    s.equal 3 4 = true ∧ (s.typeOf 3).toOption = some (.function [] .i64) ∧
      (s.typeOf 4).toOption = none := by
  decide +kernel

end Store

end ValueInference

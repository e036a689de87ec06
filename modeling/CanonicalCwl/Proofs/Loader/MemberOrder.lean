import CanonicalCwl.Proofs.Loader.Bundle
import Mathlib.Data.List.FinRange

/-!
# The Order of Members

The members of a bundle are followed one after the other, and each of them may be put into the
others on the way. What becomes of a member is nevertheless a matter of the names in the bundle,
and not of the places where the members stand.

- `Reference.followMember_perm`: a member is followed alike in bundles of the same members.
- `Document.result_follow_comp`: the members of a loaded bundle stand where those of the bundle
  do.
- `Loader.loadTree_comp_perm`: the same members in another order are loaded alike.
-/

namespace CanonicalCwl

open Result

/-- In bundles of the same members, a name finds the same one. -/
theorem findMember_perm {members members' : List Process} (hperm : members.Perm members')
    (hdistinct : (members.filterMap fun p => p.id?.map memberName).Nodup) (name : String) :
    findMember members name = findMember members' name := by
  have hdistinct' : (members'.filterMap fun p => p.id?.map memberName).Nodup :=
    (hperm.filterMap _).nodup_iff.mp hdistinct
  apply Option.ext
  intro p
  rw [findMember_eq_some_iff hdistinct, findMember_eq_some_iff hdistinct', hperm.mem_iff]

namespace Reference

variable {external : String → Outcome Process} {bundle bundle' : List Process}

/-- A reference is followed alike where every name finds the same member. -/
theorem follow_congr_bundle (hfind : ∀ name, findMember bundle name = findMember bundle' name)
    (room : ℕ) (seen : List String) (target : String) :
    follow external bundle room seen target = follow external bundle' room seen target := by
  cases meaning bundle seen target with
  | file h => rw [follow_file h, follow_file h]
  | absent h hmember => rw [follow_absent h hmember, follow_absent h (hfind _ ▸ hmember)]
  | tool h hmember htool =>
    rw [follow_tool h hmember htool, follow_tool h (hfind _ ▸ hmember) htool]
  | enclosing h hmember hseen =>
    rw [follow_enclosing h hmember hseen, follow_enclosing h (hfind _ ▸ hmember) hseen]
  | workflow h hmember hseen =>
    cases room with
    | zero =>
      rw [follow_workflow_zero h hmember hseen, follow_workflow_zero h (hfind _ ▸ hmember) hseen]
    | succ room =>
      -- Both find the same workflow, and what it runs is followed alike in less room.
      rw [follow_workflow h hmember hseen, follow_workflow h (hfind _ ▸ hmember) hseen,
        funext (follow_congr_bundle hfind room _)]
termination_by room

/-- A member is followed alike in bundles of the same members. -/
theorem followMember_perm (hperm : bundle.Perm bundle')
    (hdistinct : (bundle.filterMap fun p => p.id?.map memberName).Nodup) (p : Process) :
    followMember external bundle p = followMember external bundle' p := by
  rw [followMember, followMember, hperm.length_eq,
    funext (follow_congr_bundle (findMember_perm hperm hdistinct) _ _)]

end Reference

namespace Document

variable {external : String → Outcome Process} {version : Option String} {n : ℕ}
  {members : Fin n → Process} {d : Document}

/-- Following the references of a bundle gives a bundle, place by place. -/
theorem result_follow_ofFn :
    ((graph ⟨version, List.ofFn members⟩).follow external).result = .ok d ↔
      ∃ followed : Fin n → Process, d = graph ⟨version, List.ofFn followed⟩ ∧
        ∀ i, (Reference.followMember external (List.ofFn members) (members i)).result =
          .ok (followed i) := by
  rw [follow, Outcome.result_bind_eq_ok_iff]
  simp only [Outcome.result_mapM_eq_ok_iff, Outcome.result_pure_eq_ok_iff, forall₂_ofFn_left_iff]
  constructor
  · rintro ⟨_, ⟨followed, rfl, hall⟩, rfl⟩
    exact ⟨followed, rfl, hall⟩
  · rintro ⟨followed, rfl, hall⟩
    exact ⟨_, ⟨followed, rfl, hall⟩, rfl⟩

/-- What following the references of a bundle reports, if all of them can be followed. -/
theorem unresolved_follow_ofFn
    (h : ((graph ⟨version, List.ofFn members⟩).follow external).result = .ok d) :
    ((graph ⟨version, List.ofFn members⟩).follow external).unresolved =
      (List.ofFn members).flatMap fun p =>
        (Reference.followMember external (List.ofFn members) p).unresolved := by
  obtain ⟨followed, hfollowed, -⟩ := Outcome.result_bind_eq_ok_iff.mp h
  rw [follow, Outcome.unresolved_bind_pure, Outcome.unresolved_mapM hfollowed]

/-- With the members of a bundle in another order, so are the members that become of them, and
the same references are reported. -/
theorem result_follow_comp {followed : Fin n → Process} (σ : Equiv.Perm (Fin n))
    (hdistinct : ((List.ofFn members).filterMap fun p => p.id?.map memberName).Nodup)
    (h : ((graph ⟨version, List.ofFn members⟩).follow external).result =
      .ok (graph ⟨version, List.ofFn followed⟩)) :
    ((graph ⟨version, List.ofFn (members ∘ σ)⟩).follow external).result =
        .ok (graph ⟨version, List.ofFn (followed ∘ σ)⟩) ∧
      ((graph ⟨version, List.ofFn members⟩).follow external).unresolved.Perm
        ((graph ⟨version, List.ofFn (members ∘ σ)⟩).follow external).unresolved := by
  have hperm : (List.ofFn members).Perm (List.ofFn (members ∘ σ)) :=
    (σ.ofFn_comp_perm members).symm
  have hsame (p : Process) : Reference.followMember external (List.ofFn members) p =
      Reference.followMember external (List.ofFn (members ∘ σ)) p :=
    Reference.followMember_perm hperm hdistinct p
  have hresult : ((graph ⟨version, List.ofFn (members ∘ σ)⟩).follow external).result =
      .ok (graph ⟨version, List.ofFn (followed ∘ σ)⟩) := by
    obtain ⟨followed', heq, hall⟩ := result_follow_ofFn.mp h
    obtain rfl : followed = followed' := by simpa using heq
    apply result_follow_ofFn.mpr
    refine ⟨followed ∘ σ, rfl, ?_⟩
    intro i
    rw [← hsame]
    exact hall (σ i)
  refine ⟨hresult, ?_⟩
  rw [unresolved_follow_ofFn h, unresolved_follow_ofFn hresult, funext hsame]
  exact hperm.flatMap_right _

end Document

namespace Loader

variable {external : String → Outcome Process} {n : ℕ} {raws : Fin n → Value} {raw raw' : Value}
  {d : Document}

/-- The normal form of a bundle is taken place by place. -/
theorem normalTree_ofFn (hraw : raw.get? "$graph" = some (.sequence (List.ofFn raws))) :
    normalTree raw = .ok d ↔ ∃ members : Fin n → Process,
      (List.ofFn raws).mapM Normal.process = .ok (List.ofFn members) ∧
      (∀ i, Normal.process (raws i) = .ok (members i)) ∧
      d = .graph ⟨raw.text? "cwlVersion", List.ofFn members⟩ := by
  rw [normalTree, hraw]
  simp only [bind_eq_ok_iff, pure_eq_ok_iff, mapM_ofFn_eq_ok_iff]
  constructor
  · rintro ⟨_, ⟨members, rfl, hall⟩, rfl⟩
    exact ⟨members, ⟨members, rfl, hall⟩, hall, rfl⟩
  · rintro ⟨members, hmembers, -, rfl⟩
    exact ⟨_, hmembers, rfl⟩

/-- Members in another order have distinct names in their normal form if they have in the first. -/
theorem distinct_comp (σ : Equiv.Perm (Fin n))
    (hdistinct : ∀ members, (List.ofFn raws).mapM Normal.process = .ok members →
      (members.filterMap fun p => p.id?.map memberName).Nodup) :
    ∀ members, (List.ofFn (raws ∘ σ)).mapM Normal.process = .ok members →
      (members.filterMap fun p => p.id?.map memberName).Nodup := by
  intro members' hmembers'
  obtain ⟨members', rfl, hall⟩ := mapM_ofFn_eq_ok_iff.mp hmembers'
  have hmembers : (List.ofFn raws).mapM Normal.process = .ok (List.ofFn (members' ∘ σ.symm)) := by
    apply mapM_ofFn_eq_ok_iff.mpr
    refine ⟨members' ∘ σ.symm, rfl, ?_⟩
    intro i
    simpa using hall (σ.symm i)
  have hperm := Equiv.Perm.ofFn_comp_perm σ.symm members'
  exact (hperm.filterMap _).nodup_iff.mp (hdistinct _ hmembers)

/-- If a bundle was loaded, then the same members in another order are loaded alike. -/
theorem result_loadTree_comp (σ : Equiv.Perm (Fin n))
    (hraw : raw.get? "$graph" = some (.sequence (List.ofFn raws)))
    (hraw' : raw'.get? "$graph" = some (.sequence (List.ofFn (raws ∘ σ))))
    (hversion : raw'.text? "cwlVersion" = raw.text? "cwlVersion")
    (hdistinct : ∀ members, (List.ofFn raws).mapM Normal.process = .ok members →
      (members.filterMap fun p => p.id?.map memberName).Nodup)
    (h : (loadTree true external raw).result = .ok d) :
    ∃ members : Fin n → Process,
      d = .graph ⟨raw.text? "cwlVersion", List.ofFn members⟩ ∧
      (loadTree true external raw').result =
        .ok (.graph ⟨raw.text? "cwlVersion", List.ofFn (members ∘ σ)⟩) ∧
      (loadTree true external raw).unresolved.Perm (loadTree true external raw').unresolved := by
  rw [loadTree_true, Outcome.result_bind_eq_ok_iff] at h
  obtain ⟨d₀, hnormal, hfollow⟩ := h
  rw [Outcome.result_ofExcept] at hnormal
  obtain ⟨members, hmembers, hall, rfl⟩ := (normalTree_ofFn hraw).mp hnormal
  have hnormal' : normalTree raw' =
      .ok (.graph ⟨raw.text? "cwlVersion", List.ofFn (members ∘ σ)⟩) := by
    rw [normalTree_ofFn hraw', hversion]
    exact ⟨members ∘ σ, mapM_ofFn_eq_ok_iff.mpr ⟨_, rfl, fun i => hall (σ i)⟩,
      fun i => hall (σ i), rfl⟩
  -- The members are followed in both orders.
  obtain ⟨followed, rfl, -⟩ := Document.result_follow_ofFn.mp hfollow
  obtain ⟨hresult, hreports⟩ :=
    Document.result_follow_comp σ (hdistinct _ hmembers) hfollow
  rw [loadTree_true, loadTree_true, hnormal, hnormal', Outcome.ofExcept_ok_bind,
    Outcome.ofExcept_ok_bind]
  exact ⟨followed, rfl, hresult, hreports⟩

/-- Two bundles of one version that hold the same members in two orders, with distinct names, are
loaded alike, whatever their references to files lead to. Either both are loaded or neither is. If
they are, then the loaded members stand in the same two orders, and the same dangling references
are reported, each as often. -/
theorem loadTree_comp_perm (external : String → Outcome Process) {n : ℕ} (raws : Fin n → Value)
    (σ : Equiv.Perm (Fin n)) {raw raw' : Value}
    (hraw : raw.get? "$graph" = some (.sequence (List.ofFn raws)))
    (hraw' : raw'.get? "$graph" = some (.sequence (List.ofFn (raws ∘ σ))))
    (hversion : raw'.text? "cwlVersion" = raw.text? "cwlVersion")
    (hdistinct : ∀ members, (List.ofFn raws).mapM Normal.process = .ok members →
      (members.filterMap fun p => p.id?.map memberName).Nodup) :
    ((loadTree true external raw).Succeeds ↔ (loadTree true external raw').Succeeds) ∧
    ∀ d d', (loadTree true external raw).result = .ok d →
      (loadTree true external raw').result = .ok d' →
        (∃ members : Fin n → Process,
          d = .graph ⟨raw.text? "cwlVersion", List.ofFn members⟩ ∧
          d' = .graph ⟨raw.text? "cwlVersion", List.ofFn (members ∘ σ)⟩) ∧
        (loadTree true external raw).unresolved.Perm (loadTree true external raw').unresolved := by
  refine ⟨⟨?_, ?_⟩, ?_⟩
  · rintro ⟨d, h⟩
    obtain ⟨members, -, hresult, -⟩ :=
      result_loadTree_comp σ hraw hraw' hversion hdistinct h
    exact ⟨_, hresult⟩
  · rintro ⟨d', h'⟩
    -- The first order is the inverse of the change away from the second one.
    have hback : raw.get? "$graph" = some (.sequence (List.ofFn ((raws ∘ σ) ∘ σ.symm))) := by
      rw [hraw, Function.comp_assoc, Equiv.self_comp_symm, Function.comp_id]
    obtain ⟨members, -, hresult, -⟩ :=
      result_loadTree_comp σ.symm hraw' hback hversion.symm (distinct_comp σ hdistinct) h'
    exact ⟨_, hresult⟩
  · intro d d' h h'
    obtain ⟨members, rfl, hresult, hreports⟩ :=
      result_loadTree_comp σ hraw hraw' hversion hdistinct h
    exact ⟨⟨members, rfl, Except.ok.inj (h'.symm.trans hresult)⟩, hreports⟩

/-- Two workflows that run each other. -/
def crossedMembers : Fin 2 → Value
  | 0 => ProcessOf.toCwl (.workflow (oneStep "a" (.path "#b")))
  | 1 => ProcessOf.toCwl (.workflow (oneStep "b" (.path "#a")))

/-- The bundle of two workflows that run each other, where no file is found. -/
def loadCrossed (members : Fin 2 → Value) : Outcome Document :=
  loadTree true (fun file => .fail (.ambiguousGraph file none))
    (.tagged "$graph" (.sequence (List.ofFn members)))

/-- Two workflows that run each other are loaded alike in both orders. In each order, the path
that is left in the first one is reported first. -/
theorem loadTree_comp_perm_crossedMembers :
    (loadCrossed crossedMembers).result =
        .ok (.graph ⟨none,
          [.workflow (oneStep "a" (.inline (.workflow (oneStep "b" (.path "#a"))))),
            .workflow (oneStep "b" (.inline (.workflow (oneStep "a" (.path "#b")))))]⟩) ∧
      (loadCrossed (crossedMembers ∘ Equiv.swap 0 1)).Succeeds ∧
      (loadCrossed crossedMembers).unresolved.Perm
        (loadCrossed (crossedMembers ∘ Equiv.swap 0 1)).unresolved := by
  have hload : (loadCrossed crossedMembers).result =
      .ok (.graph ⟨none,
        [.workflow (oneStep "a" (.inline (.workflow (oneStep "b" (.path "#a"))))),
          .workflow (oneStep "b" (.inline (.workflow (oneStep "a" (.path "#b")))))]⟩) := rfl
  have hmembers : (List.ofFn crossedMembers).mapM Normal.process = .ok
      [.workflow (oneStep "a" (.path "#b")), .workflow (oneStep "b" (.path "#a"))] := rfl
  have hgraph (members : Fin 2 → Value) :
      (Value.tagged "$graph" (.sequence (List.ofFn members))).get? "$graph" =
        some (.sequence (List.ofFn members)) := rfl
  obtain ⟨hiff, hboth⟩ := loadTree_comp_perm (fun file => .fail (.ambiguousGraph file none))
    crossedMembers (Equiv.swap 0 1) (hgraph _) (hgraph _) rfl fun members h => by
      obtain rfl := Except.ok.inj (hmembers.symm.trans h)
      decide
  obtain ⟨d', hload'⟩ := hiff.mp ⟨_, hload⟩
  exact ⟨hload, ⟨d', hload'⟩, (hboth _ d' hload hload').2⟩

end Loader

end CanonicalCwl

import Oxinit.Proof.Loading

/-!
# Watching the cgroups

The cgroups of the services are registered with epoll once, at boot. As long
as no reload creates another, each has one handle and epoll watches it. A
cgroup that a reload creates is not watched, or not through its only handle.
-/

namespace Oxinit

/-- Each known service whose cgroup was created has one handle, and epoll
watches it under its id. -/
def Watched (s : Supervisor) : Prop :=
  ∀ u, s.serviceOf u ≠ none → u ∈ s.cgroups.handles →
    ∃ id, (∀ id', s.cgroups.handles[id']? = some u ↔ id' = id) ∧ id ∈ s.kernel.watched

/-- The handles are those of different units, and epoll watches them all. -/
structure Registered (s : Supervisor) : Prop where
  nodup : s.cgroups.handles.Nodup
  all : ∀ id < s.cgroups.handles.length, id ∈ s.kernel.watched

theorem Registered.watched {s : Supervisor} (h : Registered s) : Watched s := by
  intro u _ hu
  obtain ⟨id, hid⟩ := List.mem_iff_getElem?.mp hu
  have hlt : id < s.cgroups.handles.length := (List.getElem?_eq_some_iff.mp hid).1
  refine ⟨id, fun id' => ⟨fun h' => ?_, fun e => e ▸ hid⟩, h.all id hlt⟩
  exact ((List.getElem?_inj hlt h.nodup).mp (hid.trans h'.symm)).symm

theorem Registered.of_same {s s' : Supervisor} (h : Registered s) (hc : s'.cgroups = s.cgroups)
    (hw : s'.kernel.watched = s.kernel.watched) : Registered s' :=
  ⟨hc ▸ h.nodup, fun id hid => hw ▸ h.all id (hc ▸ hid)⟩

namespace Supervisor

variable {w : World} {s : Supervisor}

end Supervisor

end Oxinit

import Nanofil.Sarcasm.Runs
import Nanofil.Lib.Observations

/-! The bounded search: what it accepts, the validator accepts. -/
namespace Nanofil.Sarcasm
open List Option Results Observations

section
variable {g : Graph} {witness : Site}

theorem covered_of_covers {claim need : Protection} (valid : claim.valid = true) (ok : covers claim need = true) :
    covered claim need = .ok () := by
  simp only [covers, Bool.and_eq_true, decide_eq_true_iff] at ok
  obtain ⟨⟨⟨⟨⟨⟨⟨⟨⟨value, capability⟩, index⟩, scale⟩, permission⟩, kind⟩, low⟩, high⟩, aligned⟩, offset⟩ := ok
  have pos : 0 < claim.alignment := by
    simp only [Protection.valid, Bool.and_eq_true, decide_eq_true_iff] at valid
    have aligns := valid.2
    simp only [mem_cons, not_mem_nil, or_false] at aligns
    omega
  have le : need.alignment ≤ claim.alignment := Nat.le_of_dvd pos (Nat.dvd_of_mod_eq_zero aligned)
  simp only [covered, bind_ok, require_ok, exists_const]
  exact ⟨value, capability, ⟨index, scale⟩, permission, kind, ⟨low, high⟩, le, aligned, offset⟩

/-! ### The budget -/

/-! ### What is found -/

def Here (g : Graph) (b : Nat) : Prop := ∃ blk ∈ g.blocks, blk.id = b

theorem block_here {p : Nat} {blk : Block} (found : g.block? p = some blk) : Here g p :=
  ⟨blk, mem_of_find?_eq_some found, by simpa using find?_some found⟩

/-- Every path that the search finds checks, and so do the paths over a block's arcs. -/
theorem path_checks (typed : Typed g)
    (valid : ∀ o claim, g.operation witness = some o → o.event = ⟨some claim, none⟩ → claim.valid = true) (depth : Nat) :
    (∀ {b n : Nat} {r : Protection} {f f' : Nat} {t : Tree}, Here g b → path g witness depth b n r f = .ok (.accepted t, f') →
      checkPath g witness b n r t = .ok ()) ∧
    ∀ {arcs : List Arc} {b : Nat} {r : Protection} {f f' : Nat} {ps : Paths}, paths g witness depth arcs b r f = .ok (.accepted ps, f') →
      checkArcs g witness b r ps = .ok () ∧ ps.arcs = arcs := by
  induction depth with
  | zero =>
    refine ⟨fun _ done => ?_, fun {arcs} _ _ _ _ _ done => ?_⟩
    · rw [path] at done
      cases done
    · cases arcs with
      | nil =>
        rw [paths] at done
        cases done
        exact ⟨rfl, rfl⟩
      | cons arc arcs =>
        rw [paths] at done
        cases done
  | succ depth ih =>
    refine ⟨fun {b n r f f' t} here done => ?_, fun {arcs b r f f' ps} done => ?_⟩
    · rw [path] at done
      obtain ⟨f1, -, done⟩ := bind_ok.1 done
      cases n with
      | succ n =>
        dsimp only at done
        split at done
        · cases done
        · rename_i o found
          split at done
          · cases done
          · rename_i quiet
            split_ifs at done with same
            · split at done
              · rename_i claim access
                split_ifs at done with cover
                · cases done
                  have event : o.event = ⟨some claim, none⟩ := by
                    rw [← access, ← quiet]
                  simp only [checkPath, bind_ok, require_ok, present_ok, exists_const]
                  have claims := valid o claim (same ▸ found) event
                  exact ⟨⟨Nat.succ_pos n, rfl, same⟩, o, found, event, claims, covered_of_covers claims cover⟩
                · cases done
              · cases done
            · obtain ⟨⟨tail, f2⟩, below, done⟩ := bind_ok.1 done
              cases tail with
              | rejected why => cases done
              | accepted t =>
                cases done
                simp only [checkPath, bind_ok, require_ok, present_ok, exists_const]
                exact ⟨⟨Nat.succ_pos n, rfl⟩, o, found, rfl, quiet, ih.1 here below⟩
      | zero =>
        obtain ⟨⟨all, f2⟩, below, done⟩ := bind_ok.1 done
        cases all with
        | rejected why => cases done
        | accepted ps =>
          cases done
          obtain ⟨checks, arcs⟩ := ih.2 below
          obtain ⟨blk, there, rfl⟩ := here
          simp only [checkPath, bind_ok, require_ok, exists_const]
          exact ⟨⟨trivial, trivial⟩, ⟨typed.entered blk there, arcs⟩, checks⟩
    · cases arcs with
      | nil =>
        rw [paths] at done
        cases done
        exact ⟨rfl, rfl⟩
      | cons arc arcs =>
        rw [paths] at done
        obtain ⟨f1, -, done⟩ := bind_ok.1 done
        split at done
        · cases done
        · rename_i p source
          split at done
          · cases done
          · cases done
          · rename_i line
            split at done
            · cases done
            · rename_i before pulled
              split at done
              · cases done
              · rename_i blk block
                obtain ⟨⟨own, f2⟩, first, done⟩ := bind_ok.1 done
                cases own with
                | rejected why => cases done
                | accepted proof =>
                  obtain ⟨⟨others, f3⟩, rest, done⟩ := bind_ok.1 done
                  cases others with
                  | rejected why => cases done
                  | accepted rest' =>
                    cases done
                    obtain ⟨checks, listed⟩ := ih.2 rest
                    have own := ih.1 (block_here block) first
                    refine ⟨?_, congrArg (arc :: ·) listed⟩
                    simp only [checkArcs, bind_ok, require_ok, present_ok, exists_const]
                    exact ⟨p, source, line, before, pulled, rfl, blk, block, (), own, checks⟩

variable {r : Protection} {s : Site}

theorem mem_accesses {after : Option Barrier} (there : (s, r, after) ∈ g.accesses) :
    ∃ b ∈ g.blocks, b.id = s.block ∧ ∃ o, b.ops[s.at_]? = some o ∧ o.event = ⟨some r, after⟩ := by
  obtain ⟨b, here, inner⟩ := mem_flatMap.1 there
  obtain ⟨⟨o, k⟩, listed, found⟩ := mem_filterMap.1 inner
  obtain ⟨r', access, same⟩ := map_eq_some_iff.1 found
  cases same
  exact ⟨b, here, rfl, o, mk_mem_zipIdx_iff_getElem?.1 listed, by rw [← access]⟩

theorem operation_of_access (typed : Typed g) {after : Option Barrier} (there : (s, r, after) ∈ g.accesses) :
    Here g s.block ∧ ∃ o, g.operation s = some o ∧ o.event = ⟨some r, after⟩ := by
  obtain ⟨b, here, label, o, at_, event⟩ := mem_accesses there
  refine ⟨⟨b, here, label⟩, o, ?_, event⟩
  have found : g.block? s.block = some b := by
    rw [← label]
    exact (find_once typed.labels).2 ⟨here, rfl⟩
  rw [Graph.operation, found]
  exact at_

theorem candidate_valid (typed : Typed g) (there : (witness, r) ∈ g.candidates) :
    ∀ o claim, g.operation witness = some o → o.event = ⟨some claim, none⟩ → claim.valid = true := by
  obtain ⟨⟨s, r', after⟩, access, chosen⟩ := mem_filterMap.1 there
  split_ifs at chosen with ok
  cases chosen
  obtain ⟨-, o', found', event'⟩ := operation_of_access typed access
  intro o claim found event
  cases found.symm.trans found'
  rw [event'] at event
  cases event
  exact ok.2

theorem chooseWitness_validates (typed : Typed g) {after : Option Barrier}
    (access : (s, r, after) ∈ g.accesses) (own : r.valid = true) {cs : List (Site × Protection)} {f f' : Nat} {u : Reuse}
    (sub : ∀ c ∈ cs, c ∈ g.candidates) (done : chooseWitness g s r cs f = .ok (.covered u, f')) : validate g u = .ok () := by
  obtain ⟨here, o, found, event⟩ := operation_of_access typed access
  induction cs generalizing f with
  | nil => cases done
  | cons c cs ih =>
    obtain ⟨witness, claim⟩ := c
    rw [chooseWitness] at done
    obtain ⟨⟨tried, f1⟩, searched, done⟩ := bind_ok.1 done
    cases tried with
    | rejected why => exact ih (fun c there => sub c (mem_cons_of_mem _ there)) done
    | accepted t =>
      cases done
      have checks := (path_checks typed (candidate_valid typed (sub _ mem_cons_self)) _).1 here searched
      simp only [validate, bind_ok, require_ok, present_ok, exists_const]
      exact ⟨trivial, o, found, r, by rw [event], rfl, own, checks⟩

theorem decisions_validate (typed : Typed g) {accesses : List (Site × Protection × Option Barrier)}
    (sub : ∀ a ∈ accesses, a ∈ g.accesses) {f : Nat} {ds : List Decision} (done : decisions g accesses f = .ok ds) :
    ∀ u, .covered u ∈ ds → validate g u = .ok () := by
  induction accesses generalizing f ds with
  | nil =>
    cases done
    nofun
  | cons a accesses ih =>
    obtain ⟨s, r, after⟩ := a
    rw [decisions] at done
    have later : ∀ a ∈ accesses, a ∈ g.accesses := fun a there => sub a (mem_cons_of_mem _ there)
    split_ifs at done with own
    · obtain ⟨⟨d, f1⟩, first, done⟩ := bind_ok.1 done
      obtain ⟨rest, others, done⟩ := bind_ok.1 done
      cases done
      intro u there
      rcases mem_cons.1 there with rfl | there
      · exact chooseWitness_validates typed (sub _ mem_cons_self) own (fun _ there => there) first
      · exact ih later others u there
    · obtain ⟨⟨d, f1⟩, first, done⟩ := bind_ok.1 done
      cases first
      obtain ⟨rest, others, done⟩ := bind_ok.1 done
      cases done
      intro u there
      rcases mem_cons.1 there with same | there
      · cases same
      · exact ih later others u there

end

end Nanofil.Sarcasm

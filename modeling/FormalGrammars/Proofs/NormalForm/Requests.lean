import FormalGrammars.Proofs.NormalForm.Splitting

/-!
# A splitting is a sequence of requests

A splitting asks for stand-ins in the course of a split, and only a request
changes the names, the helpers and the directory: the origins and the output do
not matter for a stand-in.  So a sequence of splits is a sequence of requests,
and what one request keeps, all of them keep.
-/

namespace FormalGrammars

namespace Splitting

variable {g : Grammar} {c d e : Splitting}

/-! ## Requests in a row -/

/-- A request for a stand-in, in the state in which it is made. -/
structure Request where
  state : Splitting
  form : Form

namespace Request

/-- The stand-in that is given. -/
def given (r : Request) : Symbol :=
  (r.state.standIn r.form).1.1

def after (r : Request) : Splitting :=
  (r.state.standIn r.form).2

end Request

/-- The states differ in the origins and the output only. -/
def Alike (c d : Splitting) : Prop :=
  ∃ origins output, d = { c with origins := origins, output := output }

theorem Alike.refl (c : Splitting) : Alike c c :=
  ⟨c.origins, c.output, rfl⟩

theorem Alike.trans (hfirst : Alike c d) (hsecond : Alike d e) :
    Alike c e := by
  rcases hfirst with ⟨_, _, rfl⟩
  rcases hsecond with ⟨origins, output, rfl⟩
  exact ⟨origins, output, rfl⟩

/-- The requests lead from one state to the other, and nothing that matters
for a stand-in happens between them. -/
def Threads : Splitting → List Request → Splitting → Prop
  | c, [], d => Alike c d
  | c, r :: rs, d => Alike c r.state ∧ Threads r.after rs d

theorem Threads.of_alike {rs : List Request} (halike : Alike c d)
    (hthreads : Threads d rs e) : Threads c rs e := by
  cases rs with
  | nil => exact halike.trans hthreads
  | cons r rs => exact ⟨halike.trans hthreads.1, hthreads.2⟩

theorem threads_append_iff {rs later : List Request} :
    Threads c (rs ++ later) e ↔ ∃ d, Threads c rs d ∧ Threads d later e := by
  induction rs generalizing c with
  | nil =>
      constructor
      · exact fun hlater => ⟨c, .refl c, hlater⟩
      · exact fun ⟨_, halike, hlater⟩ => hlater.of_alike halike
  | cons r rs ih =>
      rw [List.cons_append, Threads, ih]
      constructor
      · rintro ⟨halike, d, hrs, hlater⟩
        exact ⟨d, ⟨halike, hrs⟩, hlater⟩
      · rintro ⟨d, ⟨halike, hrs⟩, hlater⟩
        exact ⟨halike, d, hrs, hlater⟩

theorem Threads.trans {rs later : List Request} (hfirst : Threads c rs d)
    (hsecond : Threads d later e) : Threads c (rs ++ later) e :=
  threads_append_iff.mpr ⟨d, hfirst, hsecond⟩

theorem Threads.alike {rs : List Request} (hthreads : Threads c rs d)
    (halike : Alike d e) : Threads c rs e := by
  have hboth : Threads c (rs ++ []) e := hthreads.trans halike
  rwa [List.append_nil] at hboth

/-- What does not depend on the origins and the output is kept by a sequence
of requests when a single request keeps it. -/
theorem Threads.kept {motive : Splitting → Prop} {rs : List Request}
    (hthreads : Threads c rs d)
    (halike : ∀ {c d : Splitting}, Alike c d → motive c → motive d)
    (hstandIn : ∀ c form, motive c → motive (c.standIn form).2)
    (hc : motive c) : motive d := by
  induction rs generalizing c with
  | nil => exact halike hthreads hc
  | cons r rs ih =>
      exact ih hthreads.2 (hstandIn _ _ (halike hthreads.1 hc))

theorem Supplied.of_alike (hc : c.Supplied g) (halike : Alike c d) :
    d.Supplied g := by
  rcases halike with ⟨_, _, rfl⟩
  exact ⟨hc.symbols_taken, hc.helpers_taken, hc.helpers_new, hc.helpers_nodup,
    hc.directory⟩

/-! ## The requests of a split -/

/-- The requests that are made for the terminals of a right side. -/
def terminalRequests (c : Splitting) : Form → List Request
  | [] => []
  | s :: rest =>
    if s.isVar then c.terminalRequests rest
    else ⟨c, [s]⟩ :: (c.standIn [s]).2.terminalRequests rest

/-- The requests that are made for the rests of a right side of variables. -/
def pairRequests (c : Splitting) (source? : Option Production) (head : Symbol) :
    Form → List Request
  | first :: second :: third :: rest =>
    let ((helper, fresh), d) := c.standIn (second :: third :: rest)
    ⟨c, second :: third :: rest⟩ ::
      if fresh then
        (d.noteOrigin source? (.rule head [first, helper])).pairRequests
          none helper (second :: third :: rest)
      else []
  | _ => []

/-- The requests that are made in the course of a split, in their order. -/
def requests (c : Splitting) (p : Production) : List Request :=
  match p.shape, p.head? with
  | .lambda, _ | .unit, _ | .chomsky, _ => []
  | _, none => []
  | _, some head =>
    let ((_, heads), d) := c.replaceTerminals p.rhs
    c.terminalRequests p.rhs ++ d.pairRequests (some p) head heads

/-- The requests of one split after the other. -/
def requestsOfAll (c : Splitting) : List Production → List Request
  | [] => []
  | p :: ps =>
    match c.split p with
    | .error _ => c.requests p
    | .ok (_, d) => c.requests p ++ d.requestsOfAll ps

theorem alike_noteOrigin (c : Splitting) (source? : Option Production)
    (q : Production) : Alike c (c.noteOrigin source? q) := by
  unfold noteOrigin
  split
  next => exact .refl c
  next =>
    split
    next => exact .refl c
    next => exact ⟨_, _, rfl⟩

theorem threads_replaceTerminals (c : Splitting) (form : Form) :
    Threads c (c.terminalRequests form) (c.replaceTerminals form).2 := by
  induction form generalizing c with
  | nil => exact .refl c
  | cons s form ih =>
      unfold terminalRequests Splitting.replaceTerminals
      split
      next => exact ih c
      next => exact ⟨.refl c, ih _⟩

theorem threads_cutIntoPairs (c : Splitting) (source? : Option Production)
    (head : Symbol) (heads : Form) :
    Threads c (c.pairRequests source? head heads)
      (c.cutIntoPairs source? head heads).2 := by
  induction heads generalizing c source? head with
  | nil => exact alike_noteOrigin c source? _
  | cons first rest ih =>
      match rest with
      | [] => exact alike_noteOrigin c source? _
      | [_] => exact alike_noteOrigin c source? _
      | second :: third :: rest =>
          unfold pairRequests Splitting.cutIntoPairs
          simp only
          refine ⟨.refl c, ?_⟩
          have hnoted := alike_noteOrigin
            (c.standIn (second :: third :: rest)).2 source? (.rule head [first,
              (c.standIn (second :: third :: rest)).1.1])
          split
          next => exact (ih _ _ _).of_alike hnoted
          next => exact hnoted

theorem threads_split {p : Production} {qs : List Production}
    (hsplit : c.split p = .ok (qs, d)) : Threads c (c.requests p) d := by
  unfold Splitting.split at hsplit
  unfold requests
  split at hsplit
  next => cases hsplit
  next => cases hsplit
  next hshape _ =>
    cases hsplit
    rw [hshape]
    exact ⟨_, _, rfl⟩
  next head hhead hlambda hunit hchomsky =>
    cases hsplit
    have hreplaced := threads_replaceTerminals c p.rhs
    have hboth := hreplaced.trans
      (threads_cutIntoPairs _ (some p) head (c.replaceTerminals p.rhs).1.2)
    rw [hhead]
    cases hshape : p.shape with
    | lambda => exact (hlambda hshape).elim
    | unit => exact (hunit hshape).elim
    | chomsky => exact (hchomsky hshape).elim
    | mixed => exact hboth.alike ⟨_, _, rfl⟩
    | long => exact hboth.alike ⟨_, _, rfl⟩
    | unrestricted => exact hboth.alike ⟨_, _, rfl⟩
  next => cases hsplit

theorem threads_foldlM {ps : List Production}
    (hfold : ps.foldlM (fun c p => (c.split p).map Prod.snd) c = .ok d) :
    Threads c (c.requestsOfAll ps) d := by
  induction ps generalizing c with
  | nil =>
      cases hfold
      exact .refl _
  | cons p ps ih =>
      rcases exists_split_of_foldlM hfold with ⟨_, _, hsplit, hmore⟩
      unfold requestsOfAll
      rw [hsplit]
      exact (threads_split hsplit).trans (ih hmore)

end Splitting

end FormalGrammars

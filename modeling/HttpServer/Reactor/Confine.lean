import HttpServer.Reactor.Dialogue

set_option autoImplicit false

/-! # What the document root holds

`respond_file` puts the document root in front of the request path and opens what results,
unless the path has `..` in it. Nothing makes the path begin with a slash, so that a request
for `-private/x` under the root `www` opens `www-private/x`. This module shows that there is
no other way out: no pathname is cut short, none has a `..` component, and all lie below the
root as long as the paths begin with a slash.
-/

namespace HttpServer

open CLib

variable {site : Site}

/-! ## Components -/

/-- The parts of a list between the separators lie in it, the first one at its start. -/
theorem infix_of_mem_splitOn {α : Type} [BEq α] (a : α) (xs : List α) :
    ∃ l rest, xs.splitOn a = l :: rest ∧ l <+: xs ∧ ∀ m ∈ rest, m <:+: xs := by
  induction xs with
  | nil => exact ⟨[], [], rfl, List.prefix_rfl, fun m hm => by cases hm⟩
  | cons x xs ih =>
      obtain ⟨l, rest, hsplit, hpre, hinf⟩ := ih
      have htail : ∀ m, m <:+: xs → m <:+: x :: xs :=
        fun m hm => hm.trans (List.suffix_cons x xs).isInfix
      rw [List.splitOn_cons_eq_if_modifyHead, hsplit]
      split
      · refine ⟨[], l :: rest, rfl, List.nil_prefix, fun m hm => ?_⟩
        rcases List.mem_cons.mp hm with rfl | hm
        · exact htail m hpre.isInfix
        · exact htail m (hinf m hm)
      · exact ⟨x :: l, rest, rfl, List.cons_prefix_cons.mpr ⟨rfl, hpre⟩,
          fun m hm => htail m (hinf m hm)⟩

/-- A path without `..` in it has no `..` component. -/
theorem dots_not_mem_splitOn {path : List UInt8} (h : strstr path (ascii "..") = false) :
    ascii ".." ∉ path.splitOn SLASH := by
  intro hmem
  obtain ⟨l, rest, hsplit, hpre, hinf⟩ := infix_of_mem_splitOn SLASH path
  rw [hsplit] at hmem
  have hin : ascii ".." <:+: path := by
    rcases List.mem_cons.mp hmem with rfl | hmem
    · exact hpre.isInfix
    · exact hinf _ hmem
  rw [strstr, decide_eq_false_iff_not] at h
  exact h hin

/-! ## Pathnames -/

/-- The pathname `path` is the document root followed by all of the path of the `GET` or
`HEAD` request `req`, which begins with a slash and has no `..` component. -/
structure Contained (site : Site) (req : HttpRequest) (path : List UInt8) : Prop where
  method : req.method = .get ∨ req.method = .head
  whole : path = site.docRoot ++ relPath req.path.str
  slash : (relPath req.path.str).head? = some SLASH
  dots : ascii ".." ∉ (relPath req.path.str).splitOn SLASH

theorem relPath_head (path : List UInt8) :
    (relPath path).head? = some SLASH ↔ path.head? = some SLASH := by
  unfold relPath
  split
  · rename_i hpath
    rw [hpath]
    exact ⟨fun _ => by decide, fun _ => by decide⟩
  · rfl

/-- A pathname that is cut short names nothing. -/
theorem Servable.pathname_eq {req : HttpRequest} (h : Servable site req) :
    req.pathname site = site.docRoot ++ relPath req.path.str := by
  obtain ⟨_, _, hfile⟩ := h
  have hshort : (req.pathname site).length < pathMax := by
    by_contra hlong
    have habsent := site.stat_long (req.pathname site) (by omega)
    rw [HttpRequest.pathname] at habsent
    rw [habsent] at hfile
    cases hfile
  rw [HttpRequest.pathname, fullPath, List.length_take] at hshort
  rw [HttpRequest.pathname, fullPath]
  refine List.take_of_length_le ?_
  have hmax : pathMax ≤ fullPathMax := by decide
  omega

theorem Servable.contained {req : HttpRequest} (h : Servable site req)
    (hslash : req.path.str.head? = some SLASH) : Contained site req (req.pathname site) := by
  refine ⟨h.1, h.pathname_eq, (relPath_head _).mpr hslash, ?_⟩
  unfold relPath
  split
  · decide
  · exact dots_not_mem_splitOn h.2.1

/-! ## Runs -/

/-- The requests the parser recognises in the bytes connection `cid` has been fed. -/
def Os.recognised (os : Os) (cid : Nat) : List HttpRequest :=
  (Transcript.start.run (os.parsed cid)).requests

/-- Every pathname that `open` has been called with lies below the document root. -/
def OpensBelowRoot (site : Site) (os : Os) : Prop :=
  ∀ cid, ∀ path ∈ os.opened cid, ∃ req ∈ os.recognised cid, Contained site req path

/-- Every request for a file that is there has a path that begins with a slash. -/
def PathsRooted (site : Site) (os : Os) : Prop :=
  ∀ cid, ∀ req ∈ os.recognised cid, Servable site req → req.path.str.head? = some SLASH

/-- What is opened for a connection are the files its servable requests name. -/
theorem Recorded.mem_opened {os : Os} {cid : Nat} (h : Recorded site os cid) {path : List UInt8} :
    path ∈ os.opened cid ↔
      ∃ req ∈ os.recognised cid, Servable site req ∧ req.pathname site = path := by
  rw [h.opened, List.mem_map]
  constructor
  · rintro ⟨req, hmem, rfl⟩
    obtain ⟨hreq, hserve⟩ := List.mem_filter.mp hmem
    exact ⟨req, hreq, of_decide_eq_true hserve, rfl⟩
  · rintro ⟨req, hreq, hserve, rfl⟩
    exact ⟨req, List.mem_filter.mpr ⟨hreq, decide_eq_true hserve⟩, rfl⟩

/-- **The files opened lie below the document root exactly when the paths are rooted**, for
all clients and all orders of events. -/
theorem opens_below_root_iff (site : Site) (inherited : List Nat) (es : List Event) :
    OpensBelowRoot site (reactorRun site (reactorCreate inherited) es).os ↔
      PathsRooted site (reactorRun site (reactorCreate inherited) es).os := by
  have hrec := (reactorRun_followed site inherited es).recorded
  generalize (reactorRun site (reactorCreate inherited) es).os = os at hrec ⊢
  constructor
  · intro hbelow cid req hreq hserve
    have hopen := (hrec cid).mem_opened.mpr ⟨req, hreq, hserve, rfl⟩
    obtain ⟨req', _, hcont⟩ := hbelow cid _ hopen
    have heq : relPath req.path.str = relPath req'.path.str := by
      have hwhole := hcont.whole
      rw [hserve.pathname_eq] at hwhole
      exact List.append_cancel_left hwhole
    exact (relPath_head _).mp (heq ▸ hcont.slash)
  · intro hrooted cid path hpath
    obtain ⟨req, hreq, hserve, rfl⟩ := (hrec cid).mem_opened.mp hpath
    exact ⟨req, hreq, hserve.contained (hrooted cid req hreq hserve)⟩

/-! The root `www` beside a directory `www-private`, and a request that names a file there. -/

def siblingPath : List UInt8 := ascii "www-private/x"

def siblingSite : Site where
  docRoot := ascii "www"
  stat := fun p => if p = siblingPath then .file (ascii "secret") true else .absent
  stat_long := by
    intro p hp
    refine if_neg ?_
    rintro rfl
    exact absurd hp (by decide)

def siblingEvents : List Event :=
  [⟨5, ⟨true, false, false⟩, ⟨[], [], [], []⟩,
      [⟨6, ascii "GET -private/x HTTP/1.0\n\n", true⟩]⟩,
    ⟨6, ⟨true, false, false⟩, ⟨[.bytes 100], [.bytes 1000, .bytes 1000], [], []⟩, []⟩]

/-- The file is opened and sent to the client. -/
theorem not_opensBelowRoot_sibling :
    ¬ OpensBelowRoot siblingSite
        (reactorRun siblingSite (reactorCreate [0, 1, 2]) siblingEvents).os ∧
      ascii "secret" <:+ (reactorRun siblingSite (reactorCreate [0, 1, 2]) siblingEvents).os.sent 4 := by
  refine ⟨?_, by decide +kernel⟩
  intro hbelow
  have hopen : (reactorRun siblingSite (reactorCreate [0, 1, 2]) siblingEvents).os.opened 4 =
      [siblingPath] := by decide +kernel
  obtain ⟨req, _, hcont⟩ := hbelow 4 siblingPath (by rw [hopen]; exact List.mem_singleton_self _)
  have hrel : relPath req.path.str = ascii "-private/x" :=
    List.append_cancel_left (hcont.whole.symm.trans (by decide : siblingPath = ascii "www" ++ ascii "-private/x"))
  have hslash := hcont.slash
  rw [hrel] at hslash
  exact absurd hslash (by decide)

end HttpServer

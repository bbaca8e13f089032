/-
  StateDb/ResponseBounds.lean
  ===========================
  **How long responses get** (`bigint.h`: `operator<<`; `dtypes.cpp`: `get_size`;
  `asio_server.cpp`: `send_value`, `send_key_not_found`).

  The size of a response is a `uint32_t`.  A value may be sent longer than it was set: of
  characters that are no digits nine are read into a limb, and a limb is printed with up
  to eleven (`DbObject.size_le`).

  Requests of at most 3 GiB have no response that does not fit (`handle_fits`), and so the
  size of every response of such a run, but for the pongs, is that of its body
  (`responses_announced`).
-/
import StateDb.Decoding
import StateDb.ServerAnswers

namespace StateDb

open Lib Lib.Decimal

/-! ## Bigints as texts -/

namespace Bigint

theorem natAbs_toInt_le (n : Int) : (toInt n).natAbs ≤ 2147483648 := by
  unfold toInt
  rw [Int.bmod_def]
  split <;> omega

theorem natAbs_readLimb_le (chars : List UInt8) : (readLimb chars).natAbs ≤ 2147483648 := by
  rcases List.eq_nil_or_concat' chars with rfl | ⟨init, c, rfl⟩
  · decide
  · rw [readLimb, List.foldl_append]
    exact natAbs_toInt_le _

theorem length_showInt_le {x : Int} (h : x.natAbs ≤ 2147483648) : (showInt x).length ≤ 11 := by
  have hdecimal : (decimalText x.natAbs).length ≤ 10 := by
    rw [decimalText, List.length_map]
    exact length_decimal_le (by omega) (by omega)
  unfold showInt
  split
  · rw [List.length_cons]
    omega
  · omega

theorem length_showLimb_le {x : Int} (h : x.natAbs ≤ 2147483648) : (showLimb x).length ≤ 11 := by
  have hshow := length_showInt_le h
  rw [showLimb, List.length_append, List.length_replicate]
  omega

/-- A limb has nine characters, except the last one. -/
theorem length_readLimbs_le (fuel : Nat) (chars : List UInt8) :
    9 * (readLimbs fuel chars).length ≤ chars.length + 8 := by
  induction fuel generalizing chars with
  | zero => simp [readLimbs]
  | succ fuel ih =>
    cases chars with
    | nil => simp [readLimbs]
    | cons c cs =>
      have hrest := ih ((c :: cs).rdrop 9)
      have hdrop : ((c :: cs).rdrop 9).length = (c :: cs).length - 9 := by
        rw [List.rdrop_eq_reverse_drop_reverse, List.length_reverse, List.length_drop,
          List.length_reverse]
      rw [hdrop] at hrest
      rw [readLimbs, List.length_cons]
      by_cases hlong : 9 ≤ (c :: cs).length
      · omega
      · have hnil : (c :: cs).rdrop 9 = [] := List.length_eq_zero_iff.mp (by omega)
        have hnone : readLimbs fuel [] = [] := by cases fuel <;> rfl
        rw [hnil, hnone, List.length_nil, List.length_cons]
        omega

theorem natAbs_of_mem_readLimbs {fuel : Nat} {chars : List UInt8} {x : Int}
    (hx : x ∈ readLimbs fuel chars) : x.natAbs ≤ 2147483648 := by
  induction fuel generalizing chars with
  | zero => exact absurd hx List.not_mem_nil
  | succ fuel ih =>
    cases chars with
    | nil => exact absurd hx List.not_mem_nil
    | cons c cs =>
      rcases List.mem_cons.mp hx with rfl | hx
      · exact natAbs_readLimb_le _
      · exact ih hx

theorem length_flatMap_showLimb_le {limbs : List Int} (h : ∀ x ∈ limbs, x.natAbs ≤ 2147483648) :
    (limbs.flatMap showLimb).length ≤ 11 * limbs.length := by
  induction limbs with
  | nil => exact Nat.le_refl 0
  | cons x limbs ih =>
    obtain ⟨hx, hlimbs⟩ := List.forall_mem_cons.mp h
    have hfirst := length_showLimb_le hx
    have hrest := ih hlimbs
    rw [List.flatMap_cons, List.length_append, List.length_cons]
    omega

theorem length_toString_le {b : Bigint} (h : ∀ x ∈ b.a, x.natAbs ≤ 2147483648) :
    b.toString.length ≤ 2 + 11 * b.a.length := by
  have hsign : (if b.sign = -1 then [45] else [] : List UInt8).length ≤ 1 := by
    split <;> simp
  rw [toString, List.length_append]
  cases hlimbs : b.a.reverse with
  | nil =>
    have hzero : (showInt 0).length = 1 := by decide
    dsimp only
    omega
  | cons back low =>
    have hmem : ∀ x ∈ back :: low, x.natAbs ≤ 2147483648 :=
      fun x hx => h x (List.mem_reverse.mp (hlimbs ▸ hx))
    have hlength : b.a.length = low.length + 1 := by
      rw [← List.length_reverse, hlimbs, List.length_cons]
    obtain ⟨hback, hlow⟩ := List.forall_mem_cons.mp hmem
    have hfirst := length_showInt_le hback
    have hrest := length_flatMap_showLimb_le hlow
    dsimp only
    rw [List.length_append]
    omega

/-- What was read is printed with eleven characters for nine at most. -/
theorem length_toString_readText_le (s : List UInt8) :
    9 * (readText s).toString.length ≤ 11 * s.length + 106 := by
  obtain ⟨limbs, sign, hread, hlength, hlimbs⟩ : ∃ limbs sign, readText s = trim ⟨limbs, sign⟩ ∧
      9 * limbs.length ≤ s.length + 8 ∧ ∀ x ∈ limbs, x.natAbs ≤ 2147483648 := by
    refine ⟨_, _, rfl, ?_, fun x hx => natAbs_of_mem_readLimbs hx⟩
    refine (length_readLimbs_le _ _).trans ?_
    rw [List.length_drop, List.length_take]
    omega
  have htrimmed : (readText s).a <+: limbs := by
    rw [hread]
    exact List.rdropWhile_prefix _ _
  have hshort := htrimmed.length_le
  have htext := length_toString_le fun x hx => hlimbs x (htrimmed.mem hx)
  omega

end Bigint

/-! ## Values -/

theorem getStringMxsz_length {src : List UInt8} {str : List UInt8 × Nat}
    (h : getStringMxsz src = .ok str) : str.2 + 1 ≤ src.length := by
  unfold getStringMxsz at h
  dsimp only at h
  split at h
  · split at h
    · cases h
    · obtain rfl := (Except.ok.inj h).symm
      show src.length - 1 + 1 ≤ src.length
      omega
  · obtain rfl := (Except.ok.inj h).symm
    have hle : (cstr src).length ≤ src.length := (List.takeWhile_prefix _).length_le
    show (cstr src).length + 1 ≤ src.length
    omega

/-- Whatever is loaded is written with eleven bytes for nine at most. -/
theorem loadFrom_size {dt : UInt8} {impl : Implementor} (hdt : getImplementor dt = some impl)
    {src : List UInt8} {s : Stored} {n : Nat} (h : impl.loadFrom src impl.init = .ok (s, n)) :
    ∃ size, impl.getSize s = .ok size ∧ 9 * size ≤ 11 * src.length + 115 := by
  rcases implementor_cases hdt with ⟨t, rfl, -⟩ | ⟨rfl, -⟩ | ⟨rfl, -⟩ | ⟨rfl, -⟩ | ⟨rfl, -⟩
  · obtain ⟨u, hreq, h⟩ := bind_eq_ok.mp h
    have hle := requireAtLeast_eq_ok hreq
    exact ⟨_, rfl, by omega⟩
  · obtain ⟨u, hreq, h⟩ := bind_eq_ok.mp h
    obtain ⟨u', hreq', h⟩ := bind_eq_ok.mp h
    have hle := requireAtLeast_eq_ok hreq'
    split at h
    · cases h
    · rename_i hnot
      obtain rfl := (Prod.mk.inj (Except.ok.inj h)).1
      have hlength : (src.take (leNat (src.take 4) + 4)).length = leNat (src.take 4) + 4 := by
        rw [List.length_take]
        omega
      refine ⟨_, (blob_encodes ?_).size, by omega⟩
      rw [hlength, List.take_take, Nat.min_eq_left (by omega)]
  · obtain ⟨str, hstr, h⟩ := bind_eq_ok.mp h
    obtain rfl := (Prod.mk.inj (Except.ok.inj h)).1
    obtain ⟨text, hzero, htake, -, hlength⟩ := getStringMxsz_text hstr
    have hle := getStringMxsz_length hstr
    rw [htake]
    refine ⟨_, (string_encodes hzero).size, ?_⟩
    rw [List.length_append, List.length_singleton]
    omega
  · exact ⟨0, rfl, by omega⟩
  · obtain ⟨b, -, h⟩ := bind_eq_ok.mp h
    obtain ⟨u, -, h⟩ := bind_eq_ok.mp h
    obtain ⟨str, hstr, h⟩ := bind_eq_ok.mp h
    obtain ⟨b, hread, h⟩ := bind_eq_ok.mp h
    obtain rfl := (Prod.mk.inj (Except.ok.inj h)).1
    obtain ⟨-, rfl⟩ := Bigint.read_eq_some_iff.mp (readBigint_eq_ok.mp hread)
    have htext := Bigint.length_toString_readText_le (str.1.take str.2)
    have hle := getStringMxsz_length hstr
    refine ⟨_, rfl, ?_⟩
    rw [List.length_take] at htext
    omega

/-- The size of an object that was loaded. -/
theorem DbObject.size_le {dtype : UInt8} {key : Key} {src : List UInt8} {obj : DbObject}
    (h : load dtype key src = .ok obj) {enc : List UInt8} (henc : obj.EncodesAs enc) :
    9 * enc.length ≤ 11 * src.length + 115 := by
  cases himpl : getImplementor dtype with
  | none =>
    simp only [load, make, implementor, himpl] at h
    cases h
  | some impl =>
    rw [load_eq himpl] at h
    obtain ⟨⟨s, n⟩, hload, h⟩ := bind_eq_ok.mp h
    obtain rfl := Except.ok.inj h
    obtain ⟨size, hsize, hle⟩ := loadFrom_size himpl hload
    have hget := henc.getSize
    simp only [getSize, implementor, himpl, bind_ok, hsize] at hget
    rwa [Except.ok.inj hget] at hle

/-! ## Databases -/

/-- The response with the object fits its preamble. -/
def DbObject.Fits (obj : DbObject) : Prop :=
  ∀ enc, obj.EncodesAs enc → obj.key.chars.length + 2 + enc.length < 4294967296

/-- So does the one with any object that is stored. -/
def Db.Fits (db : Db) : Prop := ∀ p ∈ db.tree, p.2.Fits

/-- A response announces its whole body. -/
def Submission.Fits : Submission → Prop
  | .keyUpdated r => r.body.length < 4294967296
  | .keyNotFound key => key.chars.length + 1 < 4294967296
  | .error _ => True
  | .pong size => size = 0

def DbRequest.body : DbRequest → List UInt8
  | .get body | .set body => body
  | .getAll => []

variable {w : Nat} {db : Db}

theorem answer_fits (hdb : db.Fits) {key : Key} (hkey : key.chars.length + 1 < 4294967296)
    {u : Submission} (h : answer w db key = .ok u) : u.Fits := by
  unfold answer at h
  cases hobj : db.getObject (makeHash w key) with
  | none =>
    rw [hobj] at h
    obtain rfl := Except.ok.inj h
    exact hkey
  | some obj =>
    rw [hobj] at h
    obtain ⟨r, hr, h⟩ := bind_eq_ok.mp h
    obtain rfl := Except.ok.inj h
    obtain ⟨enc, henc⟩ := Db.getObject_encodes hobj
    rw [sendObject_eq henc] at hr
    have hfits : obj.key.chars.length + 2 + enc.length < 4294967296 :=
      hdb _ ((SortedAssoc.lookup_eq_some_iff db.sorted).mp hobj) enc henc
    show r.body.length < 4294967296
    rw [← Except.ok.inj hr]
    simp only [Key.bytes, List.length_append, List.length_cons, List.length_nil]
    omega

/-- The key of a GET is shorter than its body. -/
theorem asCstr_length {body : List UInt8} {key : Key} (h : asCstr body = .ok key) :
    key.chars.length + 1 ≤ body.length := by
  unfold asCstr at h
  split at h
  · cases h
  · rename_i hne
    obtain rfl := Except.ok.inj h
    have hzero : (0 : UInt8) ∈ body.set (body.length - 1) 0 := List.mem_set (by omega) 0
    have hshort := length_cstr_ne hzero
    have hle : (cstr (body.set (body.length - 1) 0)).length ≤
        (body.set (body.length - 1) 0).length :=
      (List.takeWhile_prefix _).length_le
    show (cstr (body.set (body.length - 1) 0)).length + 1 ≤ body.length
    rw [List.length_set] at hshort hle
    omega

/-- The object of a SET of at most 3 GiB. -/
theorem setHandler_fits (hdb : db.Fits) {body : List UInt8} (hbody : body.length ≤ 3221225472)
    {db' : Db} {key : Key} (h : setHandler w db body = .accepted db' key) :
    db'.Fits ∧ key.chars.length + 1 < 4294967296 := by
  obtain ⟨r, rfl⟩ := exists_request h
  obtain ⟨rfl, obj, hobj, htree⟩ := setHandler_accepted h
  have hparts : r.body.length = r.key.chars.length + 2 + r.value.length := by
    simp only [SetRequest.body, Key.bytes, List.length_append, List.length_cons, List.length_nil]
    omega
  refine ⟨fun p hp => ?_, by omega⟩
  rw [htree] at hp
  rcases SortedAssoc.mem_upsert hp with rfl | hold
  · intro enc henc
    have hsize := DbObject.size_le hobj henc
    have hkey : obj.key = r.key := (DbObject.load_spec hobj).2.1
    rw [hkey]
    omega
  · exact hdb p hold

/-- A request of at most 3 GiB. -/
theorem handle_fits (hdb : db.Fits) {r : DbRequest} (hbody : r.body.length ≤ 3221225472)
    {eff : Effect} (h : r.handle w db = .ok eff) :
    eff.db.Fits ∧ ∀ u ∈ eff.replies ++ eff.broadcast, u.Fits := by
  cases r with
  | get body =>
    obtain ⟨key, hkey, h⟩ := bind_eq_ok.mp h
    obtain ⟨u, hu, h⟩ := bind_eq_ok.mp h
    obtain rfl := Except.ok.inj h
    have hle : body.length ≤ 3221225472 := hbody
    have hlt := asCstr_length hkey
    have hfits := answer_fits hdb (by omega) hu
    exact ⟨hdb, by simpa using hfits⟩
  | set body =>
    rw [DbRequest.handle, setRequest] at h
    split at h
    · rename_i db' key hset
      obtain ⟨hdb', hkey⟩ := setHandler_fits hdb hbody hset
      obtain ⟨u, hu, h⟩ := bind_eq_ok.mp h
      obtain rfl := Except.ok.inj h
      have hfits := answer_fits hdb' hkey hu
      exact ⟨hdb', by simpa using hfits⟩
    · obtain rfl := Except.ok.inj h
      exact ⟨hdb, by simp [Submission.Fits]⟩
    · cases h
  | getAll =>
    obtain ⟨us, hus, h⟩ := bind_eq_ok.mp h
    obtain rfl := Except.ok.inj h
    refine ⟨hdb, fun u hu => ?_⟩
    obtain ⟨p, hp, hanswer⟩ := mem_of_mapM hus (by simpa using hu)
    obtain ⟨enc, henc⟩ := db.encodes p hp
    have hfits := hdb p hp enc henc
    exact answer_fits hdb (by omega) hanswer

theorem serve_fits (hdb : db.Fits) {rs : List DbRequest}
    (hrs : ∀ r ∈ rs, r.body.length ≤ 3221225472) {sent : List Sent} {db' : Db}
    (h : serve w db rs = (sent, .ok db')) : db'.Fits := by
  induction rs generalizing db sent with
  | nil =>
    obtain rfl := Except.ok.inj (Prod.mk.inj h).2
    exact hdb
  | cons r rs ih =>
    obtain ⟨eff, rest, heff, -, hrest⟩ := serve_cons h
    have hnext := (handle_fits hdb (hrs r List.mem_cons_self) heff).1
    exact ih hnext (fun r' hr' => hrs r' (List.mem_cons_of_mem _ hr')) hrest

/-! ## Responses -/

/-- The preamble says which response it is, and how long. -/
structure Response.Announced (r : Response) : Prop where
  id_lt : r.id < 65536
  size_lt : r.size < 4294967296
  honest : r.Honest

/-- A pong, an error, or an answer of a database. -/
def Submission.IsServed (cfg : ServerConfig) (u : Submission) : Prop :=
  (∃ served, u = .pong (cfg.pongMemory served)) ∨ (∃ message, u = .error message) ∨
    ∃ db key, answer cfg.width db key = .ok u

theorem preambleSize_lt (n : Nat) : preambleSize n < 4294967296 := Nat.mod_lt _ (by decide)

/-- What `send_value` sends. -/
theorem answer_cases {w : Nat} {db : Db} {key : Key} {u : Submission}
    (h : answer w db key = .ok u) :
    u = .keyNotFound key ∨
      ∃ r, u = .keyUpdated r ∧ r.id = responseKeyUpdate ∧ r.size < 4294967296 := by
  unfold answer at h
  cases hobj : db.getObject (makeHash w key) with
  | none =>
    rw [hobj] at h
    exact Or.inl (Except.ok.inj h).symm
  | some obj =>
    rw [hobj] at h
    obtain ⟨r, hr, h⟩ := bind_eq_ok.mp h
    obtain ⟨enc, henc⟩ := Db.getObject_encodes hobj
    rw [sendObject_eq henc] at hr
    refine Or.inr ⟨r, (Except.ok.inj h).symm, ?_⟩
    rw [← Except.ok.inj hr]
    exact ⟨rfl, preambleSize_lt _⟩

namespace Submission

variable {cfg : ServerConfig} {u : Submission}

theorem IsServed.announced (h : u.IsServed cfg) (hfits : u.Fits) : u.response.Announced := by
  rcases h with ⟨served, rfl⟩ | ⟨message, rfl⟩ | ⟨db, key, hanswer⟩
  · have hzero : cfg.pongMemory served = 0 := hfits
    rw [hzero]
    exact ⟨by decide, by decide, (honest_pong_iff 0).mpr rfl⟩
  · exact ⟨by show responseError < 65536; decide, preambleSize_lt _, honest_error message⟩
  · rcases answer_cases hanswer with rfl | ⟨r, rfl, hid, hsize⟩
    · exact ⟨by show responseKeyDeleted < 65536; decide, preambleSize_lt _, honest_keyNotFound key⟩
    · refine ⟨?_, hsize, honest_answer hanswer hfits⟩
      show r.id < 65536
      rw [hid]
      decide

/-- A client tells a pong by its id. -/
theorem IsServed.isPong (h : u.IsServed cfg) :
    decide (u.response.id = responsePong) = u.isPong := by
  rcases h with ⟨served, rfl⟩ | ⟨message, rfl⟩ | ⟨db, key, hanswer⟩
  · rfl
  · rfl
  · rcases answer_cases hanswer with rfl | ⟨r, rfl, hid, -⟩
    · rfl
    · show decide (r.id = responsePong) = false
      rw [hid]
      rfl

end Submission

/-! ## Runs of the server -/

section Runs

variable {cfg : ServerConfig} {j : Nat} {es : List ServerEvent} {sv sv' : Server}

/-- From a database whose objects fit. -/
theorem submissions_fit (hdb : sv.db.Fits) (hrun : run (Server.step cfg) sv es = some sv')
    (hreg : StaysRegistered cfg j sv es)
    (hsmall : ∀ p ∈ Server.history cfg sv es, p.2.body.length ≤ 3221225472) :
    ∀ u ∈ Server.submissionsOn cfg j sv es, u.IsServed cfg ∧ (u.isPong = false → u.Fits) := by
  induction es generalizing sv with
  | nil => exact fun u hu => absurd hu List.not_mem_nil
  | cons e es ih =>
    obtain ⟨sv₁, hfirst, hrest⟩ := run_cons_eq_some.mp hrun
    rw [Server.history, hfirst] at hsmall
    obtain ⟨hnow, hlater⟩ := List.forall_mem_append.mp hsmall
    rw [Server.submissionsOn_cons hfirst, List.forall_mem_append]
    cases step_does hfirst hreg.start with
    | quiet hnone hsame hpongs =>
      refine ⟨fun u hu => ?_, ih (hsame ▸ hdb) hrest (hreg.rest hfirst) hlater⟩
      obtain ⟨served, rfl⟩ := hpongs u hu
      exact ⟨Or.inl ⟨served, rfl⟩, fun hnot => absurd hnot (by simp [Submission.isPong])⟩
    | executes i r eff hexec heff hsame hsubmitted =>
      have hbody : r.body.length ≤ 3221225472 :=
        hnow (i, r) (by rw [hexec]; exact List.mem_cons_self)
      obtain ⟨hdb', hfits⟩ := handle_fits hdb hbody heff
      refine ⟨fun u hu => ?_, ih (hsame ▸ hdb') hrest (hreg.rest hfirst) hlater⟩
      rw [hsubmitted] at hu
      exact ⟨Or.inr (handle_submits heff (mem_sent hu)), fun _ => hfits u (mem_sent hu)⟩

/-- The same from the start of the server on. -/
theorem run_fits {before : List ServerEvent}
    (hbefore : run (Server.step cfg) { db := Db.empty } before = some sv)
    (hrun : run (Server.step cfg) sv es = some sv') (hreg : StaysRegistered cfg j sv es)
    (hsmall : ∀ p ∈ Server.history cfg { db := Db.empty } before ++ Server.history cfg sv es,
      p.2.body.length ≤ 3221225472) :
    ∀ u ∈ Server.submissionsOn cfg j sv es, u.IsServed cfg ∧ (u.isPong = false → u.Fits) := by
  obtain ⟨hfirst, hlater⟩ := List.forall_mem_append.mp hsmall
  obtain ⟨sent, hserve⟩ := ((Server.recorded_start cfg).run hbefore).serves
  rw [List.nil_append] at hserve
  refine submissions_fit (serve_fits (fun p hp => absurd hp List.not_mem_nil) ?_ hserve) hrun hreg
    hlater
  intro r hr
  obtain ⟨p, hp, rfl⟩ := List.mem_map.mp hr
  exact hfirst p hp

end Runs

/-- In every run of the server whose requests have at most 3 GiB: what is submitted on a connection
of the registry announces its size, except for pongs. -/
theorem responses_announced {cfg : ServerConfig} {es es' : List ServerEvent} {sv sv' : Server}
    {j : Nat} (hbefore : run (Server.step cfg) { db := Db.empty } es = some sv)
    (hrun : run (Server.step cfg) sv es' = some sv') (hreg : StaysRegistered cfg j sv es')
    (hsmall : ∀ p ∈ Server.history cfg { db := Db.empty } es ++ Server.history cfg sv es',
      p.2.body.length ≤ 3221225472) :
    ∀ u ∈ Server.submissionsOn cfg j sv es', u.isPong = false → u.response.Announced := by
  intro u hu hnot
  obtain ⟨hserved, hfits⟩ := run_fits hbefore hrun hreg hsmall u hu
  exact hserved.announced (hfits hnot)

theorem responses_announced_watched : ∃ sv sv' u,
    run (Server.step ⟨64, false, fun _ => 7⟩) { db := Db.empty } connected = some sv ∧
    run (Server.step ⟨64, false, fun _ => 7⟩) sv watched = some sv' ∧
    Server.submissionsOn ⟨64, false, fun _ => 7⟩ 1 sv watched = [u] ∧ u.response.Announced := by
  refine ⟨_, _, _, rfl, rfl, rfl, ?_⟩
  refine @responses_announced ⟨64, false, fun _ => 7⟩ connected watched _ _ 1 rfl rfl
    (staysRegistered_of_connections rfl (by simp [watched])) ?_ _ List.mem_cons_self rfl
  have hsmall : ∀ p ∈ [(1, DbRequest.getAll), (0, .set setAbSeven.body)],
      p.2.body.length ≤ 3221225472 := by decide
  exact hsmall

end StateDb

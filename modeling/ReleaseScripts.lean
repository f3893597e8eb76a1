import ReleaseScripts.Text
import ReleaseScripts.Regex
import ReleaseScripts.Matches
import ReleaseScripts.Clean
import ReleaseScripts.Parse
import ReleaseScripts.Extract
import ReleaseScripts.Format
import ReleaseScripts.RoundTrip
import ReleaseScripts.Changelog
import ReleaseScripts.Headers
import ReleaseScripts.Unreleased
import ReleaseScripts.HeaderOrder
import ReleaseScripts.Validate
import ReleaseScripts.Json
import ReleaseScripts.Main
import ReleaseScripts.Runs
